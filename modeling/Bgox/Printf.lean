import Bgox.Kprintf

/-!
# Output of programs

`printf` and `puts` of the library, with `itoa` of `libc/string.c`, and the system call `write` of
`sys/idt.c` they end in.
-/

namespace Bgox

open Keyboard (chars)

/-! ## Numbers -/

section Itoa

variable {n : ℕ}

/-- The characters `itoa` takes for digits. -/
def digitChars : List UInt8 :=
  chars ['0', '1', '2', '3', '4', '5', '6', '7', '8', '9', 'a', 'b', 'c', 'd', 'e', 'f']

/-- The loop of `itoa`, with the place it has come to. -/
def itoaLoop (base : Base) (val : ℕ) (str : ℤ) (buf : Buffer UInt8 n) :
    Except Trap (Buffer UInt8 n × ℤ) :=
  if h : val = 0 then .ok (buf, str)
  else do
    let buf ← buf.store .wild (str - 1) (digitChars.getD (val % base.val) 0)
    itoaLoop base (val / base.val) (str - 1) buf
  termination_by val
  decreasing_by exact base.div_val_lt h

/-- `str` is the place of the array the string ends at, and the result the one it starts from. -/
def itoa (val : UInt64) (str : ℤ) (base : Base) (buf : Buffer UInt8 n) :
    Except Trap (Buffer UInt8 n × ℤ) := do
  let buf ← buf.store .wild str 0
  if val = 0 then
    let buf ← buf.store .wild (str - 1) 48
    return (buf, str - 1)
  else itoaLoop base val.toNat str buf

end Itoa

/-! ## `printf` -/

/-- The variables of `printf`. -/
structure Out where
  writeBuf : Buffer UInt8 1024
  len : ℕ
  istr : Buffer UInt8 100

namespace Out

/-- `memcpy(write_buf + len, s, …); len += …` -/
def put (o : Out) (s : List UInt8) : Except Trap Out := do
  let writeBuf ← o.writeBuf.write .wild o.len s
  return { o with writeBuf, len := o.len + s.length }

/-- With the string at the place `str` of `istr`. -/
def putIstr (o : Out) (istr : Buffer UInt8 100) (str : ℤ) : Except Trap Out := do
  let s ← strCpy (istr.cells.drop str.toNat)
  { o with istr }.put s

/-- `%d`. -/
def putInt (o : Out) (v : UInt64) : Except Trap Out := do
  let ival := int v.toNat
  let isNegative := ival < 0
  let ival := if isNegative then int (-ival) else ival
  let (istr, dstr) ← itoa (.ofInt ival) 99 .dec o.istr
  if isNegative then
    let istr ← istr.store .wild (dstr - 1) 45
    o.putIstr istr (dstr - 1)
  else o.putIstr istr dstr

/-- `%x`. -/
def putHex (o : Out) (v : UInt64) : Except Trap Out := do
  let (istr, xtr) ← itoa v 99 .hex o.istr
  o.putIstr istr xtr

/-- `%p`. -/
def putPtr (o : Out) (v : UInt64) : Except Trap Out := do
  let (istr, pstr) ← itoa v 99 .hex o.istr
  let istr ← istr.store .wild (pstr - 1) 120
  let istr ← istr.store .wild (pstr - 2) 48
  o.putIstr istr (pstr - 2)

end Out

/-- The cases of the `switch`, but for the end of the string. -/
def printfDirective (c : UInt8) (al : List Arg) (o : Out) : Except Trap (Out × List Arg) :=
  if c = 100 then do
    let (v, al) ← vaWord al
    return (← o.putInt v, al)
  else if c = 112 then do
    let (v, al) ← vaWord al
    return (← o.putPtr v, al)
  else if c = 120 then do
    let (v, al) ← vaWord al
    return (← o.putHex v, al)
  else if c = 99 then do
    let (v, al) ← vaWord al
    return (← o.put [.ofNat v.toNat], al)
  else if c = 115 then do
    let (s, al) ← vaPtr al
    return (← o.put (← strCpy s), al)
  else do return (← o.put [c], al)

/-- The loop of `printf`; a `%` at the end is passed over. -/
def printfLoop : List UInt8 → List Arg → Out → Except Trap Out
  | [], _, _ => .error .wild
  | c :: ptr, al, o =>
    if c = 0 then .ok o
    else if c = 37 then
      match ptr with
      | [] => .error .wild
      | d :: ptr =>
        if d = 0 then .ok o
        else do
          let (o, al) ← printfDirective d al o
          printfLoop ptr al o
    else do
      let o ← o.put [c]
      printfLoop ptr al o

/-- What `printf` leaves in `write_buf`. -/
def printfBuf (str : List UInt8) (al : List Arg) (writeBuf : Buffer UInt8 1024)
    (istr : Buffer UInt8 100) : Except Trap (Buffer UInt8 1024) := do
  let o ← printfLoop str al ⟨writeBuf, 0, istr⟩
  o.writeBuf.store .wild o.len 0

/-! ## `write` -/

/-- The system call, with the strings that are passed to `print_seq` and the result.  `sub` is the
array for a given length. -/
def syscallWrite (f : Frame) (sub : ∀ n, Buffer UInt8 n) (stream : ℕ) (third : List UInt8)
    (fourth : ℕ) : Except Trap (List (List UInt8) × ℕ) := do
  let len ← strLen third
  let (sub, written) ←
    if len ≤ fourth then do
      let sub ← strCpyInto (sub len) third
      pure (sub.cells, len)
    else do
      let sub ← strSubstr third 0 fourth (sub len) 0
      pure (sub.cells, ← strLen sub.cells)
  let printed ←
    if stream = 1 then kprintf f (chars ['%', 's'] ++ [0]) [.ptr sub]
    else kprintf f (chars ['S', 'T', 'D', 'E', 'R', 'R', ':', ' ', '%', 's'] ++ [0]) [.ptr sub]
  return (printed, written)

/-- `write` of the library, whatever the file descriptor is. -/
def write (f : Frame) (sub : ∀ n, Buffer UInt8 n) (s : List UInt8) (size : ℕ) :
    Except Trap (List (List UInt8) × ℕ) :=
  syscallWrite f sub 1 s size

def puts (f : Frame) (sub : ∀ n, Buffer UInt8 n) (s : List UInt8) :
    Except Trap (List (List UInt8) × ℕ) := do
  write f sub s (← strLen s)

def printf (f : Frame) (sub : ∀ n, Buffer UInt8 n) (writeBuf : Buffer UInt8 1024)
    (istr : Buffer UInt8 100) (str : List UInt8) (al : List Arg) :
    Except Trap (List (List UInt8) × ℕ) := do
  let writeBuf ← printfBuf str al writeBuf istr
  write f sub writeBuf.cells (← strLen writeBuf.cells)

end Bgox
