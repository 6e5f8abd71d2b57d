import Bgox.Paging

/-!
# Strings and numbers

`sys/strings.c` and `sys/utils.c`.  A pointer into memory is given by the bytes that can be read
from there on, and a string that has been read by its bytes before the 0.
-/

namespace Bgox

/-- The value of a `char`. -/
def char (c : UInt8) : ℤ := (c.toNat : ℤ).bmod (2 ^ 8)

def strLen : List UInt8 → Except Trap ℕ
  | [] => .error .wild
  | c :: s => if c = 0 then .ok 0 else do return (← strLen s) + 1

/-- The string that is copied. -/
def strCpy : List UInt8 → Except Trap (List UInt8)
  | [] => .error .wild
  | c :: s => if c = 0 then .ok [] else do return c :: (← strCpy s)

def strCmp : List UInt8 → List UInt8 → ℤ
  | [], [] => 1
  | c :: s, d :: t => if c = d then strCmp s t else -1
  | _, _ => -1

def pow (x : ℕ) : ℕ → ℕ
  | 0 => 1
  | exp + 1 => x * pow x exp % 2 ^ 64

/-- The loop of `atoi`. -/
def atoiFrom (res : ℤ) : List UInt8 → Except Trap ℤ
  | [] => .error .wild
  | c :: s => if c = 0 then .ok res else atoiFrom (int (res * 10 + char c - 48)) s

/-- `atoi`, with the result type of its declaration. -/
def atoi : List UInt8 → Except Trap ℤ
  | 45 :: s => do return int (-1 * (← atoiFrom 0 s))
  | s => atoiFrom 0 s

/-- The loop of `octTodec`. -/
def octTodecFrom (octal i decimal : ℕ) : ℕ :=
  if octal = 0 then decimal
  else octTodecFrom (octal / 10) (i + 1) ((decimal + octal % 10 * pow 8 i) % 2 ^ 64)
  termination_by octal

/-- The argument is an `int` that is extended to 64 bits. -/
def octTodec (octal : ℤ) : ℕ := octTodecFrom (octal % 2 ^ 64).toNat 0 0

end Bgox
