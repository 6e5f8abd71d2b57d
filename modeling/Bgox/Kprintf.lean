import Bgox.Keyboard
import Bgox.Lib.Buffer

/-!
# Formatted output of the kernel

`kprintf` of `sys/kprintf.c` and the functions of `sys/strings.c` it uses, as far as they store into
arrays.  An array has its size in its type, and a store outside of it is a trap; a table of rows is
one array, in which a row that is too long goes on into the next one.  What is in the arrays of a
function before it stores into them is open (`Frame`).  A pointer is given by the bytes that can be
read from there on.
-/

namespace Bgox

open Keyboard (chars)

def FMT_LEN : ℕ := 100

section Strings

variable {n : ℕ}

/-- `str_cpy(dest, src)`. -/
def strCpyInto (dest : Buffer UInt8 n) (src : List UInt8) : Except Trap (Buffer UInt8 n) := do
  let s ← strCpy src
  dest.write .wild 0 (s ++ [0])

def strConcat (prev current : List UInt8) (dest : Buffer UInt8 n) :
    Except Trap (Buffer UInt8 n) := do
  let prev ← strCpy prev
  let dest ← dest.write .wild 0 (prev ++ [0])
  let current ← strCpy current
  dest.write .wild prev.length (current ++ [0])

/-- The bytes `str[frm]`, …, `str[last]`. -/
def slice (str : List UInt8) (frm last : ℤ) : Except Trap (List UInt8) :=
  if last < frm then .ok []
  else if 0 ≤ frm ∧ last < str.length then
    .ok ((str.drop frm.toNat).take (last - frm + 1).toNat)
  else .error .wild

/-- `out_str` is the place `k` of an array. -/
def strSubstr (str : List UInt8) (frm last : ℤ) (out : Buffer UInt8 n) (k : ℕ) :
    Except Trap (Buffer UInt8 n) := do
  let s ← slice str frm last
  out.write .wild k (s ++ [0])

/-- The loop of `str_split_delim`, at the place `i` of `str`. -/
def splitLoop (str : List UInt8) (delim : UInt8) :
    List UInt8 → ℕ → ℕ → ℕ → Buffer UInt8 n → Except Trap (Buffer UInt8 n × ℕ)
  | [], _, _, _, _ => .error .wild
  | c :: rest, i, prevPtr, argCtr, out =>
    if c = 0 then do
      let out ← strSubstr str prevPtr (i - 1) out (argCtr * FMT_LEN)
      return (out, argCtr + 1)
    else if c = delim then do
      let out ← strSubstr str prevPtr (i - 1) out (argCtr * FMT_LEN)
      splitLoop str delim rest (i + 1) i (argCtr + 1) out
    else splitLoop str delim rest (i + 1) prevPtr argCtr out

/-- With the number of rows. -/
def strSplitDelim (str : List UInt8) (delim : UInt8) (out : Buffer UInt8 n) :
    Except Trap (Buffer UInt8 n × ℕ) :=
  splitLoop str delim str 0 0 0 out

def strReverse (str : List UInt8) (dest : Buffer UInt8 n) : Except Trap (Buffer UInt8 n) := do
  let s ← strCpy str
  dest.write .wild 0 (s.reverse ++ [0])

end Strings

/-! ## Numbers -/

/-- The bases that are passed. -/
inductive Base
  | dec
  | hex
  deriving DecidableEq, Repr

def Base.val : Base → ℕ
  | .dec => 10
  | .hex => 16

/-- What `itoap` stores for a digit. -/
def Base.digit : Base → ℕ → UInt8
  | .dec, rem => .ofNat (rem + 48)
  | .hex, rem => if 9 < rem then .ofNat (rem - 10 + 97) else .ofNat (rem + 48)

theorem Base.div_val_lt (base : Base) {num : ℕ} (h : num ≠ 0) : num / base.val < num :=
  Nat.div_lt_self (Nat.pos_of_ne_zero h) (by cases base <;> decide)

/-- The loop of `itoap`, with the number of digits. -/
def itoapLoop (base : Base) (num i : ℕ) (dest : Buffer UInt8 FMT_LEN) :
    Except Trap (Buffer UInt8 FMT_LEN × ℕ) :=
  if h : num = 0 then .ok (dest, i)
  else do
    let dest ← dest.store .wild i (base.digit (num % base.val))
    itoapLoop base (num / base.val) (i + 1) dest
  termination_by num
  decreasing_by exact base.div_val_lt h

/-- `num` has no sign, so that it is never negative.  `tr` is an array of `itoap`. -/
def itoap (num : UInt64) (dest : Buffer UInt8 FMT_LEN) (base : Base)
    (tr : Buffer UInt8 FMT_LEN) : Except Trap (Buffer UInt8 FMT_LEN × ℕ) :=
  if num = 0 then do
    let dest ← dest.write .wild 0 [48, 0]
    return (dest, 2)
  else do
    let neg := num < 0 ∧ base = .dec
    let (dest, i) ← itoapLoop base (if neg then -num else num).toNat 0 dest
    let dest ← dest.write .wild i (if neg then [45, 0] else [0])
    let tr ← strCpyInto tr dest.cells
    let dest ← strReverse tr.cells dest
    return (dest, ← strLen dest.cells)

/-! ## `kprintf` -/

/-- What is passed for a directive: a number, or a pointer to a string. -/
inductive Arg
  | word (v : UInt64)
  | ptr (s : List UInt8)
  deriving DecidableEq, Repr

/-- `va_arg` for a number. -/
def vaWord : List Arg → Except Trap (UInt64 × List Arg)
  | .word v :: al => .ok (v, al)
  | _ => .error .wild

/-- `va_arg` for a string. -/
def vaPtr : List Arg → Except Trap (List UInt8 × List Arg)
  | .ptr s :: al => .ok (s, al)
  | _ => .error .wild

/-- The arrays of `kprintf`, and that of `itoap`. -/
structure Frame where
  fmtSplit : Buffer UInt8 (10 * FMT_LEN)
  identfr : Buffer UInt8 3
  str : Buffer UInt8 FMT_LEN
  trail : Buffer UInt8 FMT_LEN
  tempTr : Buffer UInt8 FMT_LEN
  finalStr : Buffer UInt8 FMT_LEN
  tr : Buffer UInt8 FMT_LEN

/-- The text after a directive. -/
def trailOf (f : Frame) (fmtConst : List UInt8) : Except Trap (List UInt8) := do
  let len ← strLen fmtConst
  let trail ← strSubstr fmtConst 2 (len - 1) f.trail 0
  return trail.cells

/-- `str_cmp(identfr, "%c") > 0`. -/
def isDirective (ident : List UInt8) (c : Char) : Bool := 0 < strCmp ident (chars ['%', c])

/-- What is printed for a number. -/
def printNum (f : Frame) (ident : List UInt8) (num : UInt64) (trail : List UInt8) :
    Except Trap (List UInt8) := do
  let base := if isDirective ident 'p' || isDirective ident 'x' then Base.hex else Base.dec
  let (tempTr, _) ← itoap num f.tempTr base f.tr
  let str ← strConcat tempTr.cells trail f.str
  let finalStr ← strCpyInto f.finalStr str.cells
  if isDirective ident 'p' then
    let finalStr ← strConcat (chars ['0', 'x'] ++ [0]) str.cells finalStr
    strCpy finalStr.cells
  else strCpy finalStr.cells

/-- A turn of the loop: the string that is passed to `print_seq`.  For `%c` the character is taken
for a string, which ends only if the character is 0. -/
def kprintfPiece (f : Frame) (fmtConst : List UInt8) (al : List Arg) :
    Except Trap (List UInt8 × List Arg) := do
  let identfr ← strSubstr fmtConst 0 1 f.identfr 0
  let ident ← strCpy identfr.cells
  if isDirective ident 'd' || isDirective ident 'x' || isDirective ident 'p' then
    let trail ← trailOf f fmtConst
    let (num, al) ← vaWord al
    return (← printNum f ident num trail, al)
  else if isDirective ident 's' then
    let trail ← trailOf f fmtConst
    let (s, al) ← vaPtr al
    let str ← strConcat s trail f.str
    return (← strCpy str.cells, al)
  else if isDirective ident 'c' then
    let trail ← trailOf f fmtConst
    let (ch, al) ← vaWord al
    let str ← strConcat [.ofNat ch.toNat] trail f.str
    return (← strCpy str.cells, al)
  else return (← strCpy fmtConst, al)

/-- The loop over the rows from `i` on, `left` of them. -/
def kprintfLoop (f : Frame) (fmtSplit : List UInt8) :
    ℕ → ℕ → List Arg → Except Trap (List (List UInt8))
  | 0, _, _ => .ok []
  | left + 1, i, al => do
    let (seq, al) ← kprintfPiece f (fmtSplit.drop (i * FMT_LEN)) al
    return seq :: (← kprintfLoop f fmtSplit left (i + 1) al)

/-- The strings that are passed to `print_seq`. -/
def kprintf (f : Frame) (fmt : List UInt8) (al : List Arg) : Except Trap (List (List UInt8)) := do
  let (fmtSplit, splitCtr) ← strSplitDelim fmt 37 f.fmtSplit
  kprintfLoop f fmtSplit.cells splitCtr 0 al

end Bgox
