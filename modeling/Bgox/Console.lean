import Mathlib.Algebra.Group.Int.Defs
import Mathlib.Logic.Function.Basic
import Mathlib.Tactic.Common

/-!
# The console

`print_seq`, `scroll_up`, `clear_screen` and `move_csr` of `sys/kprintf.c`.  `video` is the memory
from `vd_addr` on: 160 bytes for each row, two for each character.  `csr` is what the display has
been told through its ports, and `log` keeps where bytes have been stored, the last place first.
-/

namespace Bgox

structure Console where
  video : ℤ → UInt8
  X : ℤ
  Y : ℤ
  csr : ℕ
  log : List ℤ

namespace Console

def moveCsr (s : Console) : Console :=
  { s with csr := ((s.Y * 80 + s.X.tdiv 2 + 1) % 2 ^ 16).toNat }

def store (s : Console) (p : ℤ) (c : UInt8) : Console :=
  { s with video := Function.update s.video p c, log := p :: s.log }

/-- The `n` bytes from `p` on are set to 0. -/
def clear (s : Console) (p : ℤ) (n : ℕ) : Console :=
  (List.range n).foldl (fun s (k : ℕ) => s.store (p + k) 0) s

/-- The `n` bytes from `next` on are moved to `top`, one by one. -/
def move (s : Console) (top next : ℤ) (n : ℕ) : Console :=
  (List.range n).foldl
    (fun s (j : ℕ) => (s.store (top + j) (s.video (next + j))).store (next + j) 0) s

/-- The loop of `scroll_up` for the rows from 1 to `n`. -/
def scrollRows (s : Console) (n : ℕ) : Console :=
  (List.range' 1 n).foldl (fun s (i : ℕ) =>
    let next : ℤ := i * 160
    let top : ℤ := (i - 1) * 160
    (s.clear top 160).move top next 160) s

def scrollUp (s : Console) : Console := moveCsr { s.scrollRows 23 with Y := 23, X := 0 }

/-- The loop of `clear_screen` for the first `n` rows. -/
def clearRows (s : Console) (n : ℕ) : Console :=
  (List.range n).foldl (fun s (y : ℕ) => s.clear (y * 160) 160) s

def clearScreen (s : Console) : Console := moveCsr { s.clearRows 25 with X := 0, Y := 0 }

/-- `y++; if (y > 23) { scroll_up(); y = 23; }` -/
def nextRow (s : Console) (y : ℤ) : Console × ℤ :=
  if 23 < y + 1 then (s.scrollUp, 23) else (s, y + 1)

/-- A turn of the loop of `print_seq`, with its variables `x` and `y`. -/
def printChar (c : UInt8) : Console × ℤ × ℤ → Console × ℤ × ℤ
  | (s, x, y) =>
    if c = 0x0a then
      let (s, y) := s.nextRow y
      (s, 0, y)
    else if c = 0x0d then (s, x, 0)
    else if 160 ≤ x + 2 then
      let (s, y) := s.nextRow y
      (s.store (y * 160 + 0) c, 0, y)
    else (s.store (y * 160 + (x + 2)) c, x + 2, y)

/-- The loop of `print_seq`. -/
def printLoop : List UInt8 → Console × ℤ × ℤ → Console × ℤ × ℤ
  | [], st => st
  | c :: seq, st => if c = 0 then st else printLoop seq (printChar c st)

def printSeq (s : Console) (seq : List UInt8) (x y : ℤ) : Console :=
  let overwriteCood := x = -1 ∨ y = -1
  let (s, x, y) := printLoop seq (s, if x = -1 then s.X else x, if y = -1 then s.Y else y)
  moveCsr (if overwriteCood then { s with X := x, Y := y } else s)

end Console

end Bgox
