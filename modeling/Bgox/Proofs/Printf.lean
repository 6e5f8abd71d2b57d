import Bgox.Proofs.Kprintf

/-!
# What `printf` writes

`printf` passes over its format once.  What it has written so far is at the start of `write_buf`
(`Out.Holds`), and a directive adds its expansion (`printfDirective_ok`), but for `%d`, which is for
numbers with a sign (`intText`).
-/

namespace Bgox

open Keyboard (chars)
open Run (bind_eq_ok)

variable {o : Out} {w s : List UInt8} {v : UInt64}

namespace Out

/-- The text `w` has been written. -/
structure Holds (o : Out) (w : List UInt8) : Prop where
  len : o.len = w.length
  has : o.writeBuf.Has 0 w

theorem put_ok (h : o.Holds w) (hlen : w.length + s.length ≤ 1024) :
    ∃ o', o.put s = .ok o' ∧ o'.Holds (w ++ s) := by
  obtain ⟨writeBuf, hwrite, hw⟩ := Buffer.write_ok Trap.wild o.writeBuf (k := o.len) (w := s)
    (by rw [h.len]; exact hlen)
  refine ⟨⟨writeBuf, o.len + s.length, o.istr⟩, ?_, ?_, ?_⟩
  · rw [put, hwrite]
    rfl
  · simp [h.len]
  · rw [Buffer.has_append, Nat.zero_add, ← h.len]
    exact ⟨hw.keeps h.has (by rw [h.len]; omega), hw.has⟩

theorem putIstr_ok {istr : Buffer UInt8 100} {p : ℕ} (h : o.Holds w) (hs : istr.Has p (s ++ [0]))
    (h0 : 0 ∉ s) (hlen : w.length + s.length ≤ 1024) :
    ∃ o', o.putIstr istr p = .ok o' ∧ o'.Holds (w ++ s) := by
  have ho : ({ o with istr } : Out).Holds w := ⟨h.len, h.has⟩
  obtain ⟨o', hput, ho'⟩ := put_ok ho hlen
  refine ⟨o', ?_, ho'⟩
  rw [putIstr, Int.toNat_natCast, strCpy_has hs h0]
  exact hput

/-- The digits in `istr`, and the place they start from. -/
theorem itoa_istr (val : UInt64) (base : Base) (istr : Buffer UInt8 100) :
    ∃ istr' p, itoa val 99 base istr = .ok (istr', ((p + 2 : ℕ) : ℤ)) ∧ p + 2 < 100 ∧
      istr'.Has (p + 2) (numeral base val.toNat ++ [0]) := by
  have hle := length_numeral_le base val
  obtain ⟨istr', hitoa, hhas⟩ := itoa_ok (p := 99) val base istr (by omega) (by omega)
  have hp : 99 - (numeral base val.toNat).length = 97 - (numeral base val.toNat).length + 2 := by
    omega
  rw [hp] at hitoa hhas
  exact ⟨istr', _, hitoa, by omega, hhas⟩

/-- The digits of a number. -/
theorem putItoa_ok (val : UInt64) (base : Base) (h : o.Holds w)
    (hlen : w.length + (numeral base val.toNat).length ≤ 1024) :
    ∃ o', (do
      let r ← itoa val 99 base o.istr
      o.putIstr r.1 r.2) = .ok o' ∧ o'.Holds (w ++ numeral base val.toNat) := by
  obtain ⟨istr, p, hitoa, -, hhas⟩ := itoa_istr val base o.istr
  obtain ⟨o', hput, ho'⟩ := putIstr_ok h hhas (zero_notMem_numeral _ _) hlen
  exact ⟨o', bind_eq_ok.2 ⟨_, hitoa, hput⟩, ho'⟩

/-- What `%d` writes: the number is negated as an `int`, and its digits are those of an unsigned
number of 64 bits. -/
def intText (v : UInt64) : List UInt8 :=
  let ival := int v.toNat
  if ival < 0 then 45 :: numeral .dec (UInt64.ofInt (int (-ival))).toNat
  else numeral .dec (UInt64.ofInt ival).toNat

theorem intText_neg (h : int v.toNat < 0) :
    intText v = 45 :: numeral .dec (UInt64.ofInt (int (-int v.toNat))).toNat := by
  simp only [intText, if_pos h]

theorem intText_nonneg (h : ¬ int v.toNat < 0) :
    intText v = numeral .dec (UInt64.ofInt (int v.toNat)).toNat := by
  simp only [intText, if_neg h]

theorem putInt_neg (h : int v.toNat < 0) : o.putInt v = (do
    let r ← itoa (.ofInt (int (-int v.toNat))) 99 .dec o.istr
    let istr ← r.1.store .wild (r.2 - 1) 45
    o.putIstr istr (r.2 - 1)) := by
  simp only [putInt, if_pos h]

theorem putInt_nonneg (h : ¬ int v.toNat < 0) : o.putInt v = (do
    let r ← itoa (.ofInt (int v.toNat)) 99 .dec o.istr
    o.putIstr r.1 r.2) := by
  simp only [putInt, if_neg h]

theorem putInt_ok (h : o.Holds w) (hlen : w.length + (intText v).length ≤ 1024) :
    ∃ o', o.putInt v = .ok o' ∧ o'.Holds (w ++ intText v) := by
  by_cases hneg : int v.toNat < 0
  · rw [intText_neg hneg] at hlen ⊢
    obtain ⟨istr, p, hitoa, hp, hhas⟩ := itoa_istr (.ofInt (int (-int v.toNat))) .dec o.istr
    obtain ⟨istr', hstore, hsign⟩ := Buffer.store_has (k := p + 1) Trap.wild (by omega) 45 hhas
    rw [← List.cons_append] at hsign
    obtain ⟨o', hput, ho'⟩ := putIstr_ok h hsign (by simpa using zero_notMem_numeral _ _) hlen
    refine ⟨o', ?_, ho'⟩
    rw [putInt_neg hneg, hitoa]
    simp only [bind, Except.bind, show ((p + 2 : ℕ) : ℤ) - 1 = (p + 1 : ℕ) by omega, hstore, hput]
  · rw [intText_nonneg hneg] at hlen ⊢
    rw [putInt_nonneg hneg]
    exact putItoa_ok _ .dec h hlen

theorem putHex_ok (h : o.Holds w) (hlen : w.length + (numeral .hex v.toNat).length ≤ 1024) :
    ∃ o', o.putHex v = .ok o' ∧ o'.Holds (w ++ numeral .hex v.toNat) :=
  putItoa_ok v .hex h hlen

theorem putPtr_ok (h : o.Holds w)
    (hlen : w.length + (chars ['0', 'x'] ++ numeral .hex v.toNat).length ≤ 1024) :
    ∃ o', o.putPtr v = .ok o' ∧ o'.Holds (w ++ (chars ['0', 'x'] ++ numeral .hex v.toNat)) := by
  obtain ⟨istr, p, hitoa, hp, hhas⟩ := itoa_istr v .hex o.istr
  obtain ⟨istr₁, hstore₁, hhas₁⟩ := Buffer.store_has (k := p + 1) Trap.wild (by omega) 120 hhas
  obtain ⟨istr₂, hstore₂, hhas₂⟩ := Buffer.store_has (k := p) Trap.wild (by omega) 48 hhas₁
  obtain ⟨o', hput, ho'⟩ := putIstr_ok (s := chars ['0', 'x'] ++ numeral .hex v.toNat) h hhas₂
    (Directive.zero_notMem_expansion (d := .ptr v) trivial) hlen
  refine ⟨o', ?_, ho'⟩
  rw [putPtr, hitoa]
  simp only [bind, Except.bind, show ((p + 2 : ℕ) : ℤ) - 1 = (p + 1 : ℕ) by omega, hstore₁,
    show ((p + 2 : ℕ) : ℤ) - 2 = p by omega, hstore₂, hput]

end Out

theorem toNat_ofInt (x : ℤ) : ((UInt64.ofInt x).toNat : ℤ) = x % 2 ^ 64 := by
  rw [UInt64.ofInt, UInt64.toNat_ofNat_of_lt' (show _ < 2 ^ 64 by omega)]
  omega

/-- A number below 2³¹ has no sign. -/
theorem intText_of_lt (h : v.toNat < 2 ^ 31) : Out.intText v = numeral .dec v.toNat := by
  have hint : int v.toNat = v.toNat := int_of_lt (by omega) (by omega)
  have hnat : (UInt64.ofInt (v.toNat : ℤ)).toNat = v.toNat := by
    have := toNat_ofInt v.toNat
    omega
  rw [Out.intText_nonneg (by omega), hint, hnat]

/-! ## Directives and text -/

namespace Directive

/-- What `printf` writes for a directive. -/
def written : Directive → List UInt8
  | .dec v => Out.intText v
  | d => d.expansion

/-- The numbers for `%d` are below 2³¹. -/
def Small : Directive → Prop
  | .dec v => v.toNat < 2 ^ 31
  | _ => True

theorem written_of_small {d : Directive} (hd : d.Small) : d.written = d.expansion := by
  cases d with
  | dec v => exact intText_of_lt (v := v) hd
  | hex v => rfl
  | ptr v => rfl
  | str s rest => rfl

theorem zero_notMem_written {d : Directive} (hd : d.Clean) : 0 ∉ d.written := by
  cases d with
  | dec v =>
    by_cases hneg : int v.toNat < 0
    · simpa [written, Out.intText_neg hneg] using zero_notMem_numeral _ _
    · simpa [written, Out.intText_nonneg hneg] using zero_notMem_numeral _ _
  | hex v => exact zero_notMem_expansion hd
  | ptr v => exact zero_notMem_expansion hd
  | str s rest => exact hd

end Directive

/-- A word is taken off the arguments. -/
theorem word_ok {put : UInt64 → Except Trap Out} {P : Out → Prop} (al : List Arg)
    (h : ∃ o', put v = .ok o' ∧ P o') : ∃ o', (do
      let (v, al) ← vaWord (.word v :: al)
      return (← put v, al)) = .ok (o', al) ∧ P o' := by
  obtain ⟨o', hput, ho'⟩ := h
  exact ⟨o', bind_eq_ok.2 ⟨_, rfl, bind_eq_ok.2 ⟨o', hput, rfl⟩⟩, ho'⟩

theorem printfDirective_ok {d : Directive} (al : List Arg) (hd : d.Clean) (h : o.Holds w)
    (hlen : w.length + d.written.length ≤ 1024) :
    ∃ o', printfDirective d.letter (d.arg :: al) o = .ok (o', al) ∧ o'.Holds (w ++ d.written) := by
  cases d with
  | dec v =>
    simp only [printfDirective, Directive.letter]
    exact word_ok al (Out.putInt_ok h hlen)
  | hex v =>
    simp only [printfDirective, Directive.letter]
    exact word_ok al (Out.putHex_ok h hlen)
  | ptr v =>
    simp only [printfDirective, Directive.letter]
    exact word_ok al (Out.putPtr_ok h hlen)
  | str s rest =>
    obtain ⟨o', hput, ho'⟩ := Out.put_ok h hlen
    refine ⟨o', ?_, ho'⟩
    simp only [printfDirective, Directive.letter]
    exact bind_eq_ok.2 ⟨_, rfl, bind_eq_ok.2 ⟨s, strCpy_append hd rest,
      bind_eq_ok.2 ⟨o', hput, rfl⟩⟩⟩

/-- Text without directives. -/
def Plain (s : List UInt8) : Prop := ∀ c ∈ s, c ≠ 0 ∧ c ≠ 37

@[simp] theorem printfLoop_end (ptr : List UInt8) (al : List Arg) (o : Out) :
    printfLoop (0 :: ptr) al o = .ok o := by
  rw [printfLoop.eq_def]
  simp

theorem printfLoop_text (ptr : List UInt8) (al : List Arg) :
    ∀ {text w : List UInt8} {o : Out}, Plain text → o.Holds w →
    w.length + text.length ≤ 1024 →
    ∃ o', printfLoop (text ++ ptr) al o = printfLoop ptr al o' ∧ o'.Holds (w ++ text)
  | [], w, o, _, h, _ => ⟨o, rfl, by simpa using h⟩
  | c :: text, w, o, hplain, h, hlen => by
    obtain ⟨⟨hc0, hc37⟩, hrest⟩ := List.forall_mem_cons.1 hplain
    rw [List.length_cons] at hlen
    obtain ⟨o₁, hput, ho₁⟩ := Out.put_ok (s := [c]) h (by simp; omega)
    obtain ⟨o', hloop, ho'⟩ := printfLoop_text ptr al hrest ho₁ (by simp; omega)
    refine ⟨o', ?_, by simpa using ho'⟩
    rw [List.cons_append, printfLoop.eq_def]
    simp only [if_neg hc0, if_neg hc37, hput, bind, Except.bind]
    exact hloop

theorem printfLoop_directive {d : Directive} (ptr : List UInt8) (al : List Arg) (hd : d.Clean)
    (h : o.Holds w) (hlen : w.length + d.written.length ≤ 1024) :
    ∃ o', printfLoop (37 :: d.letter :: ptr) (d.arg :: al) o = printfLoop ptr al o' ∧
      o'.Holds (w ++ d.written) := by
  obtain ⟨o', hdir, ho'⟩ := printfDirective_ok al hd h hlen
  refine ⟨o', ?_, ho'⟩
  rw [printfLoop.eq_def]
  simp only [if_neg d.letter_ne.1, hdir, bind, Except.bind]
  rfl

end Bgox
