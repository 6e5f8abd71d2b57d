import Mathlib.Logic.Function.Basic
import Mathlib.Tactic.Common

/-!
# The interrupt controllers

`pic_init` and `mask_init` of `sys/idt.c`, and the two writes with which `irq_timer_handler` and
`irq_kb_handler` start.  The two controllers are as in the manual of the 8259A; of its commands
those that start it and the one that ends an interrupt are there, since no other is sent.
-/

namespace Bgox

/-- What the next byte at the data port of a controller is taken for. -/
inductive Icw
  | icw2
  | icw3
  | icw4
  | mask
  deriving DecidableEq, Repr

structure I8259 where
  base : ℕ
  /-- The mask. -/
  imr : ℕ
  /-- The lines that ask for an interrupt. -/
  irr : ℕ → Bool
  /-- The lines whose interrupts have not ended. -/
  isr : ℕ → Bool
  next : Icw
  single : Bool
  needs4 : Bool
  /-- The lines other controllers are at. -/
  cascade : ℕ
  autoEoi : Bool

namespace I8259

/-- A byte at the command port. -/
def command (v : ℕ) (c : I8259) : I8259 :=
  if v.testBit 4 then
    { c with
      imr := 0
      irr := fun _ => false
      isr := fun _ => false
      next := .icw2
      single := v.testBit 1
      needs4 := v.testBit 0
      autoEoi := false }
  else if v = 0x20 then
    match (List.range 8).find? c.isr with
    | some i => { c with isr := Function.update c.isr i false }
    | none => c
  else c

/-- A byte at the data port. -/
def data (v : ℕ) (c : I8259) : I8259 :=
  match c.next with
  | .icw2 =>
    { c with
      base := v / 8 * 8
      next := if !c.single then .icw3 else if c.needs4 then .icw4 else .mask }
  | .icw3 => { c with cascade := v, next := if c.needs4 then .icw4 else .mask }
  | .icw4 => { c with autoEoi := v.testBit 1, next := .mask }
  | .mask => { c with imr := v }

/-- The line asks and is not masked, and neither it nor a line before it is being served. -/
def ready (c : I8259) (i : ℕ) : Bool :=
  c.irr i && !c.imr.testBit i && (List.range (i + 1)).all fun j => !c.isr j

def request (c : I8259) : Option ℕ := (List.range 8).find? c.ready

def serve (c : I8259) (i : ℕ) : I8259 :=
  { c with
    irr := Function.update c.irr i false
    isr := if c.autoEoi then c.isr else Function.update c.isr i true }

def raise (c : I8259) (i : ℕ) : I8259 := { c with irr := Function.update c.irr i true }

end I8259

structure Pics where
  master : I8259
  slave : I8259

namespace Pics

def outb (port v : ℕ) (s : Pics) : Pics :=
  if port = 0x20 then { s with master := s.master.command v }
  else if port = 0x21 then { s with master := s.master.data v }
  else if port = 0xa0 then { s with slave := s.slave.command v }
  else if port = 0xa1 then { s with slave := s.slave.data v }
  else s

def picInit (s : Pics) : Pics :=
  [(0x20, 0x11), (0xa0, 0x11), (0x21, 0x20), (0xa1, 0x28), (0x21, 0x04), (0xa1, 0x02),
    (0x21, 0x01), (0xa1, 0x01), (0x21, 0xff), (0xa1, 0xff)].foldl (fun s w => s.outb w.1 w.2) s

def maskInit (s : Pics) : Pics := s.outb 0x21 0xfc

/-- The first two lines of both handlers. -/
def eoi (s : Pics) : Pics := (s.outb 0x20 0x20).outb 0xa0 0x20

/-- The slave is at line 2 of the master. -/
def wired (s : Pics) : I8259 :=
  { s.master with irr := Function.update s.master.irr 2 s.slave.request.isSome }

/-- The processor acknowledges an interrupt, and gets its vector. -/
def acknowledge (s : Pics) : Option (Pics × ℕ) := do
  let i ← s.wired.request
  if s.wired.cascade.testBit i then
    let j ← s.slave.request
    return (⟨s.wired.serve i, s.slave.serve j⟩, s.slave.base + j)
  else return ({ s with master := s.wired.serve i }, s.wired.base + i)

/-- A device raises its line, or the processor takes an interrupt if there is one. -/
inductive Event
  | raise (line : ℕ)
  | take
  deriving DecidableEq, Repr

/-- With the vector, if an interrupt is taken.  The handlers run with interrupts off up to the two
writes. -/
def step (s : Pics) : Event → Pics × Option ℕ
  | .raise line =>
    (if line < 8 then { s with master := s.master.raise line }
      else { s with slave := s.slave.raise (line - 8) }, none)
  | .take =>
    match s.acknowledge with
    | some (s, v) => (s.eoi, some v)
    | none => (s, none)

/-- The vectors of the interrupts that are taken. -/
def taken (s : Pics) : List Event → List ℕ
  | [] => []
  | e :: es => (s.step e).2.toList ++ taken (s.step e).1 es

end Pics

end Bgox
