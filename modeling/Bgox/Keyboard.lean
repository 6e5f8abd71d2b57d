import Mathlib.Logic.Function.Basic
import Bgox.Strings

/-!
# The keyboard

`irq_kb_handler` of `sys/idt.c`, which collects a line in `char_buf`, and what the system calls
`gets` and `read` do when they have waited long enough.  The echo on the screen is left out.
-/

namespace Bgox

structure Keyboard where
  shiftOn : Bool
  ctrlOn : Bool
  charBuf : ℕ → UInt8
  bufIdx : ℤ
  newLine : Bool

namespace Keyboard

def chars (cs : List Char) : List UInt8 := cs.map Char.toUInt8

/-- The table of `sys/kb_map.h`, without the zeros at its end. -/
def kbdus : List UInt8 :=
  [0, 27] ++ chars ['1', '2', '3', '4', '5', '6', '7', '8', '9', '0', '-', '='] ++ [8, 9] ++
  chars ['q', 'w', 'e', 'r', 't', 'y', 'u', 'i', 'o', 'p', '[', ']'] ++ [10, 0] ++
  chars ['a', 's', 'd', 'f', 'g', 'h', 'j', 'k', 'l', ';'] ++ [39, 96, 0, 92] ++
  chars ['z', 'x', 'c', 'v', 'b', 'n', 'm', ',', '.', '/'] ++ [0] ++ chars ['*'] ++ [0] ++
  chars [' '] ++ List.replicate 16 0 ++ chars ['-'] ++ [0, 0, 0] ++ chars ['+']

/-- The character of a key. -/
def kbd (key : ℕ) : UInt8 := kbdus.getD key 0

/-- The cases of the `switch`: digits, then the other keys. -/
def symbols : List (ℕ × UInt8) :=
  (List.range' 2 12).zip (chars ['!', '@', '#', '$', '%', '^', '&', '*', '(', ')', '_', '+']) ++
  [26, 27, 39].zip (chars ['{', '}', ':']) ++ [(40, 34)] ++ [41, 43].zip (chars ['~', '|']) ++
  [51, 52, 53].zip (chars ['<', '>', '?'])

/-- What is stored for a key. -/
def keyChar (shiftOn : Bool) (key : ℕ) : UInt8 :=
  if shiftOn then (symbols.lookup key).getD (kbd key - 32) else kbd key

/-- `char_buf[buf_idx] = c`. -/
def set (s : Keyboard) (c : UInt8) : Except Trap Keyboard :=
  if 0 ≤ s.bufIdx ∧ s.bufIdx < 1024 then
    .ok { s with charBuf := Function.update s.charBuf s.bufIdx.toNat c }
  else .error .wild

/-- `char_buf[buf_idx++] = c`. -/
def put (s : Keyboard) (c : UInt8) : Except Trap Keyboard := do
  let s ← s.set c
  return { s with bufIdx := s.bufIdx + 1 }

/-- What it does with a byte from the controller. -/
def irqKbHandler (s : Keyboard) (key : ℕ) : Except Trap Keyboard :=
  if key = 0x2a then .ok { s with shiftOn := true }
  else if key = 0xaa then .ok { s with shiftOn := false }
  else if key = 0x1d then { s with ctrlOn := true, shiftOn := true }.put 94
  else if key = 0x9d then .ok { s with ctrlOn := false, shiftOn := false }
  else if key = 0x0e then
    if 0 < s.bufIdx then do
      let s ← s.set 0
      return { s with bufIdx := s.bufIdx - 1 }
    else .ok s
  else if key = 0x1c then { s with newLine := true }.put 10
  else if key < 0x52 then s.put (keyChar s.shiftOn key)
  else .ok s

def run (s : Keyboard) (codes : List ℕ) : Except Trap Keyboard := codes.foldlM irqKbHandler s

/-- `memset(char_buf, 0, 1024); buf_idx = 0; new_line = 0;` -/
def clear (s : Keyboard) : Keyboard :=
  { s with charBuf := fun _ => 0, bufIdx := 0, newLine := false }

/-- The system call, with the string that is copied, once `new_line` is set. -/
def gets (s : Keyboard) : Except Trap (List UInt8 × Keyboard) := do
  let buf := (List.range 1024).map s.charBuf
  let len ← strLen buf
  return (buf.take len, s.clear)

/-- The loop of the system call `read` ends, for a request of `n` bytes: `idx` is an `int` that is
compared with a number of 64 bits. -/
def Polled (s : Keyboard) (n : ℕ) : Prop :=
  n = 0 ∨ s.newLine = true ∨ n ≤ (s.bufIdx % 2 ^ 64).toNat

/-- The system call after that, with the bytes it copies to the caller's buffer and the result. -/
def read (s : Keyboard) : Except Trap (List UInt8 × ℕ × Keyboard) := do
  let buf := (List.range 1024).map s.charBuf
  let len ← strLen buf
  let s := s.clear
  let ret ← strLen ((List.range 1024).map s.charBuf)
  return (buf.take len, ret, s)

def start : Keyboard := ⟨false, false, fun _ => 0, 0, false⟩

/-! ## Runs -/

/-- An interrupt, or the end of a system call. -/
inductive Event
  | key (code : ℕ)
  | gets
  | read (n : ℕ)
  deriving DecidableEq, Repr

def event (s : Keyboard) : Event → Except Trap Keyboard
  | .key code => s.irqKbHandler code
  | .gets | .read _ => .ok s.clear

def events (s : Keyboard) (es : List Event) : Except Trap Keyboard := es.foldlM event s

end Keyboard

end Bgox
