import Bgox.Printf
import Bgox.Tarfs

/-!
# The shell

How `oxterm` reads a command line and takes it apart, up to its call of `fork`, and what the
handlers of the system calls `exec`, `cat`, `sleep` and `kill` do with the strings they are passed,
up to the functions they call then.  The arrays of `oxterm` are cleared before; those of the
handlers are not, and what is in them is open.
-/

namespace Bgox

open Keyboard (chars)

/-! ## `oxterm` -/

def COMM_LEN : ℕ := 50

/-- A space, a tab or a newline. -/
def isBlank (c : UInt8) : Bool := c == 32 || c == 9 || c == 10

/-- The loop of `strfind_delim`, at the place `i`. -/
def findDelimLoop : List UInt8 → ℕ → Except Trap ℕ
  | [], _ => .error .wild
  | c :: str, i =>
    if c = 0 then .ok (i - 1)
    else if isBlank c then .ok i
    else findDelimLoop str (i + 1)

def strfindDelim (str : List UInt8) (frm : ℕ) : Except Trap ℕ :=
  findDelimLoop (str.drop (frm + 1)) (frm + 1)

/-- What becomes of a line: it is passed over, for a newline at its start or for its length, or its
two parts are passed to `execvp`. -/
inductive Parsed
  | empty
  | tooLong
  | command (cmd arg : List UInt8)
  deriving DecidableEq, Repr

/-- A turn of the loop of `main`, up to what it prints; `line` is what `gets` copies to `input`. -/
def oxtermMain (line : List UInt8) : Except Trap Parsed := do
  let zeros : Buffer UInt8 COMM_LEN := .replicate COMM_LEN 0
  let input ← zeros.write .wild 0 line
  if input.cells.head? = some 10 then return .empty
  else
    let len ← strLen input.cells
    if COMM_LEN ≤ len then return .tooLong
    else
      let delim ← strfindDelim input.cells 0
      let cmd ← strSubstr input.cells 0 (delim - 1) zeros 0
      let arg ← strSubstr input.cells (delim + 1) len zeros 0
      let cmd ← cmd.store .wild delim 0
      let arg ← arg.store .wild (len - delim - 2) 0
      return .command cmd.cells arg.cells

/-- The arrays that are there when a program prints: those of `kprintf`, `sub`, `write_buf` and
`istr`. -/
structure Stdout where
  frame : Frame
  sub : ∀ n, Buffer UInt8 n
  writeBuf : Buffer UInt8 1024
  istr : Buffer UInt8 100

def Stdout.printf (o : Stdout) (str : List UInt8) (al : List Arg) :
    Except Trap (List (List UInt8) × ℕ) :=
  Bgox.printf o.frame o.sub o.writeBuf o.istr str al

def careful : List UInt8 :=
  chars "\noxTerm: Careful with command lengths !\n".toList ++ [0]

/-- A turn of the loop up to `fork`, with the scan codes that come in before `gets` returns. -/
def shellTurn (o : Stdout) (s : Keyboard) (codes : List ℕ) : Except Trap (Parsed × Keyboard) := do
  let s ← s.run codes
  let (line, s) ← s.gets
  let parsed ← oxtermMain line
  match parsed with
  | .empty => return (parsed, s)
  | .tooLong =>
    let _ ← o.printf careful []
    return (parsed, s)
  | .command _ _ =>
    let _ ← o.printf (chars ['%', 's'] ++ [0]) [.ptr [0]]
    return (parsed, s)

/-- One turn after the other, up to the first that gets to `fork`. -/
def shellRun : Keyboard → List (Stdout × List ℕ) → Except Trap (List Parsed)
  | _, [] => .ok []
  | s, (o, codes) :: rest => do
    let (parsed, s) ← shellTurn o s codes
    match parsed with
    | .command _ _ => return [parsed]
    | .empty | .tooLong => return parsed :: (← shellRun s rest)

/-! ## System calls -/

def PATH : List UInt8 := chars ['b', 'i', 'n', '/']

/-- The system calls 7 and 8: the file that is started, whether it is passed an argument, and the
argument; `none` if there is no such file. -/
def syscallExec (fs : Tarfs) (buf third : List UInt8) (cmd argument : Buffer UInt8 50) :
    Except Trap (Option (File × Bool × List UInt8)) := do
  let cmd ← strConcat (PATH ++ [0]) buf cmd
  match fs.openFile (← strCpy cmd.cells) with
  | none => return none
  | some fd =>
    let argument ← strCpyInto argument third
    let len ← strLen argument.cells
    let same := strCmp (← strCpy argument.cells) (← strCpy buf)
    return some (fd, 0 < len ∧ same < 0, argument.cells)

/-- The system call 14: the name of the file that is opened. -/
def syscallCat (buf : List UInt8) (cmdArgs : Buffer UInt8 (2 * FMT_LEN)) :
    Except Trap (List UInt8) := do
  let (cmdArgs, _) ← strSplitDelim buf 32 cmdArgs
  strCpy cmdArgs.cells

/-- The loop of `str_contains`, at the place `i`: the place where the end of `query` is found. -/
def containsLoop (query : List UInt8) : List UInt8 → ℕ → ℕ → ℤ → Except Trap (Option ℤ)
  | [], _, _, _ => .error .wild
  | c :: str, i, j, startIdx =>
    if c = 0 then .ok none
    else if c = query.getD j 0 then
      if j + 1 = query.length then .ok (some i) else containsLoop query str (i + 1) (j + 1) i
    else if 0 ≤ startIdx then containsLoop query str (i + 1) 0 (-1)
    else containsLoop query str (i + 1) j startIdx

def strContains (str query : List UInt8) : Except Trap ℤ := do
  match ← containsLoop query str 0 0 (-1) with
  | some startIdx => return startIdx - query.length + 1
  | none => return -1

/-- The system call 22: whether the task goes to the background, and the argument of
`sys_sleep`. -/
def syscallSleep (buf : List UInt8) (cmdArgs : Buffer UInt8 (2 * FMT_LEN)) :
    Except Trap (Bool × ℤ) := do
  let (cmdArgs, _) ← strSplitDelim buf 32 cmdArgs
  let found ← strContains buf (chars ['&'])
  return (found ≠ -1, ← atoi cmdArgs.cells)

/-- The system call 24: the argument of `sys_kill`, or `none` if the usage is printed. -/
def syscallKill (buf : List UInt8) (cmdArgs : Buffer UInt8 (3 * FMT_LEN)) (out : Buffer UInt8 3) :
    Except Trap (Option ℤ) := do
  let (cmdArgs, _) ← strSplitDelim buf 32 cmdArgs
  let arg := cmdArgs.cells.drop FMT_LEN
  let len ← strLen arg
  let out ← strSubstr arg 1 (len - 1) out 0
  if (← strLen out.cells) = 0 then return none
  else return some (← atoi out.cells)

end Bgox
