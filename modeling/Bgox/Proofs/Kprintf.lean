import Bgox.Proofs.Numerals

/-!
# What `kprintf` prints for a row

A row that starts with a directive is printed as its expansion and the text after it, if there is
room for both (`kprintfPiece_directive`).  A row that does not end in time has too much text for the
array `trail` (`kprintfPiece_error`), and a row without a directive is printed as it is.
-/

namespace Bgox

open Keyboard (chars)
open Run (bind_eq_ok)

/-! ## Directives -/

/-- A directive, with the argument for it.  A string ends with a 0, and `rest` is behind it. -/
inductive Directive
  | dec (v : UInt64)
  | hex (v : UInt64)
  | ptr (v : UInt64)
  | str (s rest : List UInt8)
  deriving DecidableEq, Repr

namespace Directive

def letter : Directive → UInt8
  | dec _ => 100
  | hex _ => 120
  | ptr _ => 112
  | str _ _ => 115

def arg : Directive → Arg
  | dec v | hex v | ptr v => .word v
  | str s rest => .ptr (s ++ 0 :: rest)

/-- What it stands for. -/
def expansion : Directive → List UInt8
  | dec v => numeral .dec v.toNat
  | hex v => numeral .hex v.toNat
  | ptr v => chars ['0', 'x'] ++ numeral .hex v.toNat
  | str s _ => s

/-- Strings have no 0 in them. -/
def Clean : Directive → Prop
  | dec _ | hex _ | ptr _ => True
  | str s _ => 0 ∉ s

theorem letter_ne (d : Directive) : d.letter ≠ 0 ∧ d.letter ≠ 37 := by
  cases d <;> simp [letter]

theorem zero_notMem_expansion {d : Directive} (hd : d.Clean) : 0 ∉ d.expansion := by
  cases d with
  | dec v => exact zero_notMem_numeral _ _
  | hex v => exact zero_notMem_numeral _ _
  | ptr v => simpa [expansion, chars] using ⟨by decide, by decide, zero_notMem_numeral _ _⟩
  | str s rest => exact hd

end Directive

/-! ## The identifier -/

variable {f : Frame} {text t : List UInt8} {l : UInt8}

theorem strCmp_pos_iff {s t : List UInt8} : 0 < strCmp s t ↔ s = t := by
  rw [← strCmp_eq_one]
  fun_induction strCmp s t <;> simp_all

@[simp] theorem isDirective_iff {c : Char} : isDirective [37, l] c = true ↔ l = c.toUInt8 := by
  have hident : chars ['%', c] = [37, c.toUInt8] := rfl
  simp [isDirective, strCmp_pos_iff, hident]

theorem isDirective_of_ne {ident : List UInt8} (h : ident.head? ≠ some 37) (c : Char) :
    isDirective ident c = false := by
  rw [isDirective, decide_eq_false_iff_not, strCmp_pos_iff]
  rintro rfl
  exact h rfl

/-- The first two bytes are copied. -/
theorem identfr_ok (f : Frame) (c d : UInt8) (t : List UInt8) :
    ∃ identfr, strSubstr (c :: d :: t) 0 1 f.identfr 0 = .ok identfr ∧
      identfr.Has 0 [c, d, 0] := by
  exact strSubstr_ok (u := []) (v := [c, d]) (w := t) f.identfr rfl rfl (by simp)

/-- A row that does not start with `%` is printed as it is. -/
theorem kprintfPiece_plain {c d : UInt8} (hc : c ≠ 37) (t : List UInt8) (al : List Arg) :
    kprintfPiece f (c :: d :: t) al = do return (← strCpy (c :: d :: t), al) := by
  obtain ⟨identfr, hsub, hhas⟩ := identfr_ok f c d t
  have hident : ∃ ident, strCpy identfr.cells = .ok ident ∧ ident.head? ≠ some 37 := by
    by_cases hc0 : c = 0
    · subst hc0
      exact ⟨[], strCpy_cells (hhas.take 1) (by simp), by simp⟩
    · by_cases hd0 : d = 0
      · subst hd0
        exact ⟨[c], strCpy_cells (hhas.take 2) (by simpa using Ne.symm hc0), by simpa using hc⟩
      · exact ⟨[c, d], strCpy_cells hhas (by simpa using ⟨Ne.symm hc0, Ne.symm hd0⟩),
          by simpa using hc⟩
  obtain ⟨ident, hcpy, hne⟩ := hident
  simp [kprintfPiece, hsub, hcpy, isDirective_of_ne hne, bind, Except.bind]

/-! ## Rows with a directive -/

/-- The identifier of a directive. -/
theorem ident_directive (hl : l ≠ 0) (t : List UInt8) :
    ∃ identfr, strSubstr (37 :: l :: t) 0 1 f.identfr 0 = .ok identfr ∧
      strCpy identfr.cells = .ok [37, l] := by
  obtain ⟨identfr, hsub, hhas⟩ := identfr_ok f 37 l t
  exact ⟨identfr, hsub, strCpy_cells hhas (by simpa using Ne.symm hl)⟩

/-- All of the row but for its first two bytes is copied. -/
theorem trailOf_eq (hl : l ≠ 0) (htext : 0 ∉ text) :
    trailOf f (37 :: l :: (text ++ 0 :: t)) = (do
      let trail ← strSubstr ([37, l] ++ (text ++ 0 :: t)) 2 ((text.length + 2 : ℕ) - 1) f.trail 0
      return trail.cells) := by
  have hstr : strLen (37 :: l :: (text ++ 0 :: t)) = .ok (text.length + 2) :=
    strLen_append (s := 37 :: l :: text) (by simpa using ⟨Ne.symm hl, htext⟩) t
  rw [trailOf, hstr]
  rfl

theorem trailOf_ok (hl : l ≠ 0) (htext : 0 ∉ text) (hlen : text.length < FMT_LEN) :
    ∃ trail, trailOf f (37 :: l :: (text ++ 0 :: t)) = .ok trail ∧ strCpy trail = .ok text := by
  obtain ⟨trail, hsub, hhas⟩ := strSubstr_ok (u := [37, l]) (v := text) (w := 0 :: t) (k := 0)
    f.trail (i := 2) (j := (text.length + 2 : ℕ) - 1) rfl (by omega) (by omega)
  refine ⟨trail.cells, ?_, strCpy_cells hhas htext⟩
  rw [trailOf_eq hl htext]
  exact bind_eq_ok.2 ⟨trail, hsub, rfl⟩

/-- A row of 102 bytes or more has no room in `trail`. -/
theorem trailOf_error {w : List UInt8} (hl : l ≠ 0) (hw : 0 ∉ w) (hlen : FMT_LEN ≤ w.length) :
    trailOf f (37 :: l :: (w ++ t)) = .error .wild := by
  by_cases h0 : 0 ∈ t
  · obtain ⟨u, v, rfl, hu⟩ := List.eq_append_cons_of_mem h0
    have hsub := strSubstr_error (u := [37, l]) (v := w ++ u) (w := 0 :: v) (k := 0) f.trail
      (i := 2) (j := ((w ++ u).length + 2 : ℕ) - 1) rfl (by omega) (by simp; omega)
    rw [← List.append_assoc, trailOf_eq hl (by simpa using ⟨hw, hu⟩), hsub]
    rfl
  · rw [trailOf, strLen_of_notMem (by simpa using ⟨Ne.symm hl, hw, h0⟩)]
    rfl

section Printed

variable {trail : List UInt8} (htrail : strCpy trail = .ok text) (htext : 0 ∉ text)
include htrail htext

/-- The numeral and the text after it are in `str` and in `final_str`. -/
theorem printNum_eq (base : Base) {v : UInt64}
    (hbase : (if l = 112 ∨ l = 120 then Base.hex else Base.dec) = base)
    (hlen : (numeral base v.toNat).length + text.length < FMT_LEN) :
    ∃ str finalStr : Buffer UInt8 FMT_LEN,
      str.Has 0 (numeral base v.toNat ++ text ++ [0]) ∧
      finalStr.Has 0 (numeral base v.toNat ++ text ++ [0]) ∧
      printNum f [37, l] v trail = if l = 112 then do
          let finalStr ← strConcat (chars ['0', 'x'] ++ [0]) str.cells finalStr
          strCpy finalStr.cells
        else strCpy finalStr.cells := by
  have hnum := zero_notMem_numeral base v.toNat
  obtain ⟨tempTr, ret, hitoap, htemp⟩ := itoap_ok v f.tempTr base f.tr
  obtain ⟨str, hconcat, hstr⟩ := strConcat_ok f.str (strCpy_cells htemp hnum) htrail hlen
  have hall : 0 ∉ numeral base v.toNat ++ text := by simpa using ⟨hnum, htext⟩
  obtain ⟨finalStr, hcpy, hfinal⟩ := strCpyInto_ok f.finalStr (strCpy_cells hstr hall)
    (by simpa using hlen)
  refine ⟨str, finalStr, hstr, hfinal, ?_⟩
  have hp : 'p'.toUInt8 = 112 := rfl
  have hx : 'x'.toUInt8 = 120 := rfl
  simp only [printNum, Bool.or_eq_true, isDirective_iff, hp, hx, hbase, hitoap, hconcat, hcpy, bind,
    Except.bind]

theorem printNum_plain {v : UInt64} {base : Base} (hl : l ≠ 112)
    (hbase : (if l = 120 then Base.hex else Base.dec) = base)
    (hlen : (numeral base v.toNat).length + text.length < FMT_LEN) :
    printNum f [37, l] v trail = .ok (numeral base v.toNat ++ text) := by
  obtain ⟨str, finalStr, -, hfinal, heq⟩ := printNum_eq (f := f) (l := l) htrail htext base
    (by simpa [hl] using hbase) hlen
  rw [heq, if_neg hl]
  refine strCpy_cells hfinal ?_
  simpa using ⟨zero_notMem_numeral base v.toNat, htext⟩

theorem printNum_ptr {v : UInt64}
    (hlen : 2 + (numeral .hex v.toNat).length + text.length < FMT_LEN) :
    printNum f [37, 112] v trail = .ok (chars ['0', 'x'] ++ numeral .hex v.toNat ++ text) := by
  have hnum := zero_notMem_numeral .hex v.toNat
  have hall : 0 ∉ numeral .hex v.toNat ++ text := by simpa using ⟨hnum, htext⟩
  have h0x : 0 ∉ chars ['0', 'x'] := by decide
  obtain ⟨str, finalStr, hstr, -, heq⟩ := printNum_eq (f := f) (l := 112) (v := v) htrail htext
    .hex (by simp) (by omega)
  obtain ⟨final, hconcat, hfinal⟩ := strConcat_ok finalStr (strCpy_append h0x [])
    (strCpy_cells hstr hall)
    (by simp [chars]; omega)
  rw [heq, if_pos rfl, hconcat, List.append_assoc]
  refine strCpy_cells hfinal ?_
  rw [List.mem_append, not_or]
  exact ⟨h0x, hall⟩

end Printed

theorem kprintfPiece_num {v : UInt64} {trail r : List UInt8} {al : List Arg}
    (hl : l = 100 ∨ l = 120 ∨ l = 112)
    (htrail : trailOf f (37 :: l :: t) = .ok trail) (hnum : printNum f [37, l] v trail = .ok r) :
    kprintfPiece f (37 :: l :: t) (.word v :: al) = .ok (r, al) := by
  obtain ⟨identfr, hsub, hident⟩ := ident_directive (f := f) (l := l)
    (by rcases hl with rfl | rfl | rfl <;> simp) t
  have hcond : (isDirective [37, l] 'd' || isDirective [37, l] 'x' || isDirective [37, l] 'p')
      = true := by simpa [Char.toUInt8, or_assoc] using hl
  simp only [kprintfPiece, hsub, hident, hcond, htrail, vaWord, hnum, bind, Except.bind]
  rfl

/-- A directive is printed with the text after it. -/
theorem kprintfPiece_directive {d : Directive} (f : Frame) (al : List Arg) (t : List UInt8)
    (hd : d.Clean) (htext : 0 ∉ text) (hlen : d.expansion.length + text.length < FMT_LEN) :
    kprintfPiece f (37 :: d.letter :: (text ++ 0 :: t)) (d.arg :: al)
      = .ok (d.expansion ++ text, al) := by
  obtain ⟨trail, htrail, hcpy⟩ := trailOf_ok (f := f) (t := t) d.letter_ne.1 htext (by omega)
  cases d with
  | dec v =>
    exact kprintfPiece_num (by simp [Directive.letter]) htrail
      (printNum_plain hcpy htext (by simp [Directive.letter]) rfl hlen)
  | hex v =>
    exact kprintfPiece_num (by simp [Directive.letter]) htrail
      (printNum_plain hcpy htext (by simp [Directive.letter]) rfl hlen)
  | ptr v =>
    rw [Directive.expansion, List.length_append] at hlen
    exact kprintfPiece_num (by simp [Directive.letter]) htrail (printNum_ptr hcpy htext hlen)
  | str s rest =>
    obtain ⟨identfr, hsub, hident⟩ := ident_directive (f := f) (l := 115) (by decide)
      (text ++ 0 :: t)
    obtain ⟨str, hconcat, hstr⟩ := strConcat_ok f.str (strCpy_append hd rest) hcpy hlen
    have hall := strCpy_cells hstr (by simpa using ⟨hd, htext⟩)
    simp only [Directive.letter] at htrail
    simp [kprintfPiece, hsub, hident, htrail, hconcat, hall, vaPtr, bind, Except.bind, pure,
      Except.pure, Char.toUInt8, Directive.letter, Directive.arg, Directive.expansion]

/-- A string with the text after it has no room in `str`. -/
theorem kprintfPiece_str_error {s : List UInt8} (f : Frame) (al : List Arg) (t rest : List UInt8)
    (hs : 0 ∉ s) (htext : 0 ∉ text)
    (hlen : text.length < FMT_LEN) (hfull : FMT_LEN ≤ s.length + text.length) :
    kprintfPiece f (37 :: 115 :: (text ++ 0 :: t)) (.ptr (s ++ 0 :: rest) :: al)
      = .error .wild := by
  obtain ⟨identfr, hsub, hident⟩ := ident_directive (f := f) (l := 115) (by decide)
    (text ++ 0 :: t)
  obtain ⟨trail, htrail, hcpy⟩ := trailOf_ok (f := f) (l := 115) (t := t) (by decide) htext hlen
  have hconcat := strConcat_error f.str (strCpy_append hs rest) hcpy hfull
  simp [kprintfPiece, hsub, hident, htrail, hconcat, vaPtr, bind, Except.bind, Char.toUInt8]

/-- A row that does not end in time. -/
theorem kprintfPiece_error {w : List UInt8} (d : Directive) (hw : 0 ∉ w)
    (hlen : FMT_LEN ≤ w.length) (t : List UInt8) (al : List Arg) :
    kprintfPiece f (37 :: d.letter :: (w ++ t)) al = .error .wild := by
  obtain ⟨identfr, hsub, hident⟩ := ident_directive (f := f) d.letter_ne.1 (w ++ t)
  have htrail : trailOf f (37 :: d.letter :: (w ++ t)) = .error .wild :=
    trailOf_error d.letter_ne.1 hw hlen
  simp only [kprintfPiece, hsub, hident, htrail, bind, Except.bind]
  cases d <;> simp [Char.toUInt8, Directive.letter]

end Bgox
