import Bgox.Console
import Bgox.Kprintf
import Bgox.Process

/-!
# The time since boot

`timer_init` and `irq_timer_handler` of `sys/idt.c` and `kprintf_boott` of `sys/kprintf.c`: the
timer counts the ticks, and the first of every hundred puts the number of the hundreds before it in
the last row of the screen.  Between two ticks the kernel prints, takes a character back when the
key for it is pressed, and clears the screen.

`Ticker` puts the clock and the scheduler together: the same interrupts that make a new second are
those that call `dec_sleep_count`.
-/

namespace Bgox

open Keyboard (chars)

/-! ## The timer -/

/-- Channel 0 of the timer. -/
structure Pit where
  /-- The first of two bytes at the data port, if only it has come. -/
  low : Option ℕ
  /-- The first byte is the lower one, and a second one follows. -/
  both : Bool
  /-- The number of its input's periods from a tick to the next one. -/
  reload : ℕ

namespace Pit

def outb (port v : ℕ) (s : Pit) : Pit :=
  if port = 0x43 then
    if v / 64 = 0 then { s with low := none, both := v / 16 % 4 == 3 } else s
  else if port = 0x40 then
    match s.both, s.low with
    | true, none => { s with low := some v }
    | true, some l =>
      { s with low := none, reload := if l + 256 * v = 0 then 65536 else l + 256 * v }
    | false, _ => { s with reload := if v = 0 then 256 else v }
  else s

/-- The divisor is cut to its two lower bytes. -/
def timerInit (s : Pit) : Pit :=
  let divisor := 1193180
  let l := divisor % 256
  let h := divisor / 256 % 256
  ((s.outb 0x43 0x36).outb 0x40 l).outb 0x40 h

/-- The number of ticks in so many periods of the input. -/
def ticksIn (s : Pit) (periods : ℕ) : ℕ := periods / s.reload

/-- The periods of the input in a second. -/
def frequency : ℕ := 1193182

end Pit

/-! ## The display -/

/-- The arrays of `kprintf_boott`, and that of `itoap`. -/
structure BoottFrame where
  timeStr : Buffer UInt8 FMT_LEN
  boots : Buffer UInt8 FMT_LEN
  tr : Buffer UInt8 FMT_LEN

def timeSinceBoot : List UInt8 :=
  chars ['>', 'T', 'i', 'm', 'e', ' ', 'S', 'i', 'n', 'c', 'e', ' ', 'B', 'o', 'o', 't', ':', ' ']

namespace Console

/-- The loop of `kprintf_boott`, which counts `temp2` up before it stores through it. -/
def putStatic (s : Console) (temp2 : ℤ) : List UInt8 → Console
  | [] => s
  | c :: temp1 => (s.store (temp2 + 2) c).putStatic (temp2 + 2) temp1

def kprintfBoott (f : BoottFrame) (s : Console) (seq : List UInt8) (sec : ℤ) :
    Except Trap Console := do
  let (boots, _) ← itoap (.ofNat (sec % 2 ^ 64).toNat) f.boots .dec f.tr
  let timeStr ← strConcat (seq ++ [0]) boots.cells f.timeStr
  let temp1 ← strCpy timeStr.cells
  return s.putStatic (24 * 160 + 100) temp1

/-- What `irq_kb_handler` does on the screen when a character is taken back. -/
def backspace (s : Console) : Console :=
  let s := printSeq { s with X := s.X - 2 } (chars [' ']) (-1) (-1)
  moveCsr { s with X := s.X - 2 }

end Console

structure Clock where
  console : Console
  ticks : ℤ
  sec : ℤ
  /-- How often `dec_sleep_count` has been called. -/
  decs : ℕ

namespace Clock

def irqTimerHandler (f : BoottFrame) (s : Clock) : Except Trap Clock := do
  if s.ticks.tmod 100 = 0 then
    let newSec := s.ticks.tdiv 100
    let s ←
      if newSec ≠ s.sec then do
        let console ← s.console.kprintfBoott f timeSinceBoot newSec
        pure { s with sec := newSec, console }
      else pure s
    return { s with decs := s.decs + 1, ticks := int (s.ticks + 1) }
  else return { s with ticks := int (s.ticks + 1) }

inductive Event
  | timer (f : BoottFrame)
  | print (seq : List UInt8)
  | backspace
  | clear

/-- What an event does to the text. -/
def act (s : Console) : Event → Console
  | .timer _ => s
  | .print seq => s.printSeq seq (-1) (-1)
  | .backspace => s.backspace
  | .clear => s.clearScreen

def step (s : Clock) (e : Event) : Except Trap Clock :=
  match e with
  | .timer f => s.irqTimerHandler f
  | e => .ok { s with console := act s.console e }

def run (s : Clock) (es : List Event) : Except Trap Clock := es.foldlM step s

end Clock

/-! ## The clock and the scheduler -/

structure Ticker where
  clock : Clock
  sched : Sched

namespace Ticker

inductive Event
  | clock (e : Clock.Event)
  | op (op : Op)

def Event.isTimer : Event → Bool
  | .clock (.timer _) => true
  | _ => false

/-- The operation of the scheduler an event comes to, if any. -/
def opOf (x : Ticker) : Event → Option Op
  | .clock (.timer _) => if x.clock.ticks.tmod 100 = 0 then some .tick else none
  | .clock _ => none
  | .op op => some op

def clockStep (x : Ticker) : Event → Except Trap Clock
  | .clock e => x.clock.step e
  | .op _ => .ok x.clock

def schedStep (x : Ticker) (e : Event) : Except Linked.Fault Sched :=
  match x.opOf e with
  | some op => x.sched.step op
  | none => .ok x.sched

/-- The tasks do not call `dec_sleep_count`. -/
structure Step (x : Ticker) (e : Event) (x' : Ticker) : Prop where
  own : e ≠ .op .tick
  clock : x.clockStep e = .ok x'.clock
  sched : x.schedStep e = .ok x'.sched

end Ticker

end Bgox
