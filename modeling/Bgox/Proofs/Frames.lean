import Bgox.Interrupts

/-!
# What an interrupt leaves

A routine saves the registers, calls its function, takes the registers back and returns with
`iretq`.  If the function returns and leaves the stack above it alone, the code that was
interrupted goes on with all its registers (`isr_restores`); for a system call `rax` is what the
function leaves in it.
-/

namespace Bgox

open Relation (ReflTransGen)

namespace Cpu

variable {p : Program} {c c₁ c₂ : Cpu} {rest : List Instr}

/-- The instructions stand in memory from `a` on. -/
abbrev CodeAt (p : Program) (a : ℕ) (is : List Instr) : Prop := Code.At Instr.size p.fetch a is

theorem Reaches.trans (h : Reaches p c c₁) (h' : Reaches p c₁ c₂) : Reaches p c c₂ :=
  ReflTransGen.trans h h'

/-- The first of the instructions that are there. -/
theorem reaches_cons {i : Instr} (h : CodeAt p c.rip (i :: rest)) :
    Reaches p c (exec p { c with rip := c.rip + i.size } i) :=
  ReflTransGen.single (by rw [Cpu.step, h.1, Option.map_some])

/-! ## Saving and taking back -/

theorem reaches_pushes : ∀ (rs : List Reg) {c : Cpu}, CodeAt p c.rip (rs.map .pushq) →
    Reaches p c { c with
      rip := c.rip + Code.length Instr.size (rs.map .pushq)
      rsp := c.rsp - 8 * rs.length
      mem := Stack.pushes (rs.map c.reg) c.mem c.rsp }
  | [], c, _ => ReflTransGen.refl
  | r :: rs, c, h => by
    have hrs := (reaches_cons h).trans (reaches_pushes rs h.2)
    simp only [exec, push, Nat.sub_sub, Nat.add_assoc] at hrs
    rw [List.map_cons, Code.length_cons, List.length_cons, Nat.mul_succ, Nat.add_comm (8 * _)]
    exact hrs

theorem reaches_pops : ∀ (rs : List Reg) {c : Cpu}, CodeAt p c.rip (rs.map .popq) →
    Reaches p c { c with
      rip := c.rip + Code.length Instr.size (rs.map .popq)
      rsp := c.rsp + 8 * rs.length
      reg := Stack.pops c.mem rs c.rsp c.reg }
  | [], c, _ => ReflTransGen.refl
  | r :: rs, c, h => by
    have hrs := (reaches_cons h).trans (reaches_pops rs h.2)
    simp only [exec, Nat.add_assoc] at hrs
    rw [List.map_cons, Code.length_cons, List.length_cons, Nat.mul_succ, Nat.add_comm (8 * _)]
    exact hrs

/-! ## In and out of a function -/

/-- The function of a routine has been called: above the address it returns to are the registers of
the code that was interrupted, and the words the processor has pushed. -/
structure Called (rs : List Reg) (ws : List ℕ) (top ret : ℕ) (c c₁ : Cpu) : Prop where
  words : Stack.At c₁.mem c₁.rsp (ret :: (rs.reverse.map c.reg ++ ws))
  room : c₁.rsp + 8 * (1 + rs.length + ws.length) = top
  cr3 : c₁.cr3 = c.cr3

variable {rs : List Reg} {ws : List ℕ} {top ret : ℕ}

/-- The function has returned, and the registers are taken back. -/
theorem Called.resume (h : Called rs ws top ret c c₁) (hr : Returned top c₁ c₂)
    (hcode : CodeAt p ret (rs.reverse.map .popq)) :
    Stack.At c₂.mem (top - 8 * ws.length) ws ∧ Reaches p c₂ { c₂ with
      rip := ret + Code.length Instr.size (rs.reverse.map .popq)
      rsp := top - 8 * ws.length
      reg := fun r => if r ∈ rs then c.reg r else c₂.reg r } := by
  have hroom := h.room
  have hlen : (ret :: (rs.reverse.map c.reg ++ ws)).length = 1 + rs.length + ws.length := by
    simp only [List.length_cons, List.length_append, List.length_map, List.length_reverse]
    omega
  have hwords : Stack.At c₂.mem c₁.rsp (ret :: (rs.reverse.map c.reg ++ ws)) :=
    h.words.congr fun a ha hlt => hr.kept a ha (by rw [hlen] at hlt; omega)
  obtain ⟨-, hwords⟩ := Stack.at_cons.1 hwords
  obtain ⟨hregs, hframe⟩ := Stack.at_append.1 hwords
  have hret : c₂.rip = ret := hr.rip.trans (Stack.at_cons.1 h.words).1
  rw [← hr.rsp] at hregs
  have hbase : c₁.rsp + 8 + 8 * (rs.reverse.map c.reg).length = top - 8 * ws.length := by
    rw [List.length_map, List.length_reverse]
    omega
  rw [hbase] at hframe
  refine ⟨hframe, ?_⟩
  have hpops := reaches_pops rs.reverse (c := c₂) (hret ▸ hcode)
  have hreg : Stack.pops c₂.mem rs.reverse c₂.rsp c₂.reg
      = fun r => if r ∈ rs then c.reg r else c₂.reg r := by
    funext r
    rw [Stack.pops_eq r hregs]
    simp only [List.mem_reverse]
  rw [hret, hreg, hr.rsp, List.length_reverse, show c₁.rsp + 8 + 8 * rs.length
    = top - 8 * ws.length by omega] at hpops
  exact hpops

/-- The words from the frame of the processor to the address the function returns to, upwards. -/
def frame (err : Option ℕ) (c : Cpu) : List ℕ := err.toList ++ [c.rip, c.cs, c.rflags, c.rsp, c.ss]

theorem length_frame (err : Option ℕ) (c : Cpu) :
    (c.frame err).length = 5 + err.toList.length := by
  simp [frame, Nat.add_comm]

/-- The processor has pushed its frame, and the routine the registers and the address. -/
theorem called_of_pushes {err : Option ℕ} (hroom : 8 * (1 + rs.length + (c.frame err).length) ≤ top)
    (hmem : c₁.mem = Stack.pushes ((c.frame err).reverse ++ (rs.map c.reg ++ [ret])) c.mem top)
    (hrsp : c₁.rsp = top - 8 * (1 + rs.length + (c.frame err).length)) (hcr3 : c₁.cr3 = c.cr3) :
    Called rs (c.frame err) top ret c c₁ := by
  refine ⟨?_, by omega, hcr3⟩
  have hlen : ((c.frame err).reverse ++ (rs.map c.reg ++ [ret])).length
      = 1 + rs.length + (c.frame err).length := by
    simp only [List.length_append, List.length_reverse, List.length_map, List.length_singleton]
    omega
  have hat := Stack.pushes_at ((c.frame err).reverse ++ (rs.map c.reg ++ [ret])) c.mem
    (show _ ≤ top by omega)
  rw [hlen, ← hrsp, ← hmem] at hat
  simpa [List.reverse_append, List.map_reverse] using hat

/-- The registers are saved and a function is called. -/
theorem reaches_call {h : Handler} (hc : CodeAt p c.rip (rs.map .pushq ++ .call h :: rest)) :
    CodeAt p (c.rip + Code.length Instr.size (rs.map .pushq) + 5) rest ∧ Reaches p c { c with
      rip := p.handler h
      rsp := c.rsp - 8 * rs.length - 8
      mem := Stack.pushes
        (rs.map c.reg ++ [c.rip + Code.length Instr.size (rs.map .pushq) + 5]) c.mem c.rsp } := by
  obtain ⟨hpush, hcall⟩ := Code.at_append.1 hc
  refine ⟨hcall.2, ?_⟩
  have hreach := (reaches_pushes rs hpush).trans (reaches_cons hcall)
  simp only [exec, push] at hreach
  rw [Stack.pushes_append, List.length_map]
  exact hreach

theorem reaches_iretq (hcode : CodeAt p c.rip (.iretq :: rest)) {rip cs rflags rsp ss : ℕ}
    (hat : Stack.At c.mem c.rsp [rip, cs, rflags, rsp, ss]) :
    Reaches p c { c with rip, cs, rflags, rsp, ss } := by
  have hreach := reaches_cons hcode
  obtain ⟨h0, hat⟩ := Stack.at_cons.1 hat
  obtain ⟨h1, hat⟩ := Stack.at_cons.1 hat
  obtain ⟨h2, hat⟩ := Stack.at_cons.1 hat
  obtain ⟨h3, hat⟩ := Stack.at_cons.1 hat
  obtain ⟨h4, -⟩ := Stack.at_cons.1 hat
  simp only [Nat.add_assoc, Nat.reduceAdd] at h1 h2 h3 h4
  simp only [exec, h0, h1, h2, h3, h4] at hreach
  exact hreach

/-! ## The routines -/

theorem isrCode_plain {n : ℕ} (h : n ≠ 13) (h' : n ≠ 14) (hsys : n ≠ 128) :
    isrCode n = isrPlain (isrHandler n) := by
  simp only [isrCode, isrHandler, isr32, isr33, gisr]
  split_ifs <;> first | contradiction | rfl

/-- The code that was interrupted, when the function of the routine has returned with `c₂`: as it
was, but for memory and the result of a system call. -/
def resumed (n : ℕ) (c c₂ : Cpu) : Cpu :=
  { c with
    mem := c₂.mem
    reg := if n = 128 then Function.update c.reg .rax (c₂.reg .rax) else c.reg }

section Interrupt

variable {rsp0 target n : ℕ} {err : Option ℕ} {h : Handler} {post : List Instr} {e : Cpu}

theorem interrupt_mem (c : Cpu) (rsp0 target : ℕ) (err : Option ℕ) :
    (c.interrupt rsp0 target err).mem
      = Stack.pushes (c.frame err).reverse c.mem (c.stackTop rsp0) := by
  rcases err with _ | err <;> rfl

theorem interrupt_rsp (c : Cpu) (rsp0 target : ℕ) (err : Option ℕ) :
    (c.interrupt rsp0 target err).rsp = c.stackTop rsp0 - 8 * (c.frame err).length := by
  rcases err with _ | err <;> rfl

/-- The routine has called its function: the registers `rs` are saved, and `post` is what it does
when they have been taken back. -/
structure Enters (p : Program) (rs : List Reg) (h : Handler) (post : List Instr) (ret : ℕ)
    (e c₁ : Cpu) : Prop where
  reach : Reaches p e c₁
  rip : c₁.rip = p.handler h
  rsp : c₁.rsp = e.rsp - 8 * rs.length - 8
  cr3 : c₁.cr3 = e.cr3
  mem : c₁.mem = Stack.pushes (rs.map e.reg ++ [ret]) e.mem e.rsp
  code : CodeAt p ret (rs.reverse.map .popq ++ post)

theorem Enters.called (hin : Enters p rs h post ret (c.interrupt rsp0 target err) c₁)
    (hroom : 8 * (1 + rs.length + (c.frame err).length) ≤ c.stackTop rsp0) :
    Called rs (c.frame err) (c.stackTop rsp0) ret c c₁ := by
  refine called_of_pushes hroom ?_ ?_ hin.cr3
  · rw [hin.mem, interrupt_mem, interrupt_rsp, Stack.pushes_append (c.frame err).reverse,
      List.length_reverse]
    rfl
  · rw [hin.rsp, interrupt_rsp]
    omega

/-- What the routine does before `post`. -/
theorem Enters.back (hin : Enters p rs h post ret (c.interrupt rsp0 target err) c₁)
    (hroom : 8 * (1 + rs.length + (c.frame err).length) ≤ c.stackTop rsp0)
    (hr : Returned (c.stackTop rsp0) c₁ c₂) :
    ∃ a, CodeAt p a post ∧
      Stack.At c₂.mem (c.stackTop rsp0 - 8 * (c.frame err).length) (c.frame err) ∧
      Reaches p c₂ { c₂ with
        rip := a
        rsp := c.stackTop rsp0 - 8 * (c.frame err).length
        reg := fun r => if r ∈ rs then c.reg r else c₂.reg r } := by
  obtain ⟨hpops, hpost⟩ := Code.at_append.1 hin.code
  obtain ⟨hat, hreach⟩ := (hin.called hroom).resume hr hpops
  exact ⟨_, hpost, hat, hreach⟩

theorem enters_call (hcode : CodeAt p e.rip
    (rs.map .pushq ++ .call h :: (rs.reverse.map .popq ++ post))) :
    ∃ c₁ ret, c₁.reg = e.reg ∧ Enters p rs h post ret e c₁ := by
  obtain ⟨hrest, hreach⟩ := reaches_call hcode
  refine ⟨_, _, ?_, hreach, rfl, rfl, rfl, rfl, hrest⟩
  rfl

theorem enters_plain (hcode : CodeAt p e.rip (isrPlain h)) :
    ∃ c₁ ret, c₁.reg = e.reg ∧ Enters p pushed h [.sti, .iretq] ret e c₁ := by
  simp only [isrPlain, List.append_assoc, List.cons_append, List.nil_append] at hcode
  obtain ⟨c₁, ret, hreg, hin⟩ := enters_call (e := exec p { e with rip := e.rip + 1 } .cli) hcode.2
  exact ⟨c₁, ret, hreg, { hin with reach := (reaches_cons hcode).trans hin.reach }⟩

theorem enters_syscall (hcode : CodeAt p e.rip isr128) :
    ∃ c₁ ret, c₁.reg = e.reg ∧ Enters p pushed.tail .syscall [.iretq] ret e c₁ := by
  simp only [isr128, List.append_assoc, List.cons_append, List.nil_append] at hcode
  exact enters_call hcode

/-- The two words above the saved registers are passed to the function. -/
theorem enters_call_args (rs : List Reg) (hroom : 8 * rs.length ≤ e.rsp) (hcode : CodeAt p e.rip
    (rs.map .pushq ++ .movq (8 * rs.length) .rdi :: .movq (8 * rs.length + 8) .rsi :: .call h ::
      (rs.reverse.map .popq ++ post))) :
    ∃ c₁ ret, c₁.reg .rdi = e.mem e.rsp ∧ c₁.reg .rsi = e.mem (e.rsp + 8) ∧
      Enters p rs h post ret e c₁ := by
  obtain ⟨hpush, hrdi⟩ := Code.at_append.1 hcode
  have hreach := (reaches_pushes rs hpush).trans (reaches_cons hrdi)
  have hreach := (hreach.trans (reaches_cons hrdi.2)).trans (reaches_cons hrdi.2.2)
  have habove : ∀ a, e.rsp ≤ a → Stack.pushes (rs.map e.reg) e.mem e.rsp a = e.mem a := fun a ha =>
    Stack.pushes_frame _ (by simpa using hroom) (Or.inr ha)
  simp only [exec, push, Nat.sub_add_cancel hroom, ← Nat.add_assoc, habove _ (Nat.le_refl _),
    habove _ (Nat.le_add_right e.rsp 8)] at hreach
  refine ⟨_, _, ?_, ?_, hreach, rfl, rfl, rfl, ?_, hrdi.2.2.2⟩
  · simp
  · simp
  · rw [Stack.pushes_append, List.length_map]
    rfl

theorem enters_error (hroom : 120 ≤ e.rsp) (hcode : CodeAt p e.rip (isrError h)) :
    ∃ c₁ ret, c₁.reg .rdi = e.mem e.rsp ∧ c₁.reg .rsi = e.mem (e.rsp + 8) ∧
      Enters p pushed h [.addq 8, .sti, .iretq] ret e c₁ := by
  simp only [isrError, List.append_assoc, List.cons_append, List.nil_append] at hcode
  obtain ⟨c₁, ret, hrdi, hrsi, hin⟩ := enters_call_args pushed
    (e := exec p { e with rip := e.rip + 1 } .cli) hroom hcode.2
  exact ⟨c₁, ret, hrdi, hrsi, { hin with reach := (reaches_cons hcode).trans hin.reach }⟩

theorem mem_pushed (r : Reg) : r ∈ pushed := by
  cases r <;> decide

theorem mem_pushed_tail {r : Reg} : r ∈ pushed.tail ↔ r ≠ .rax := by
  cases r <;> decide

theorem cr3_of_returned (hin : Enters p rs h post ret (c.interrupt rsp0 target err) c₁)
    (hr : Returned top c₁ c₂) : c₂.cr3 = c.cr3 :=
  hr.cr3.trans hin.cr3

theorem returns_plain (hroom : 8 * 21 ≤ c.stackTop rsp0)
    (hin : Enters p pushed h [.sti, .iretq] ret (c.interrupt rsp0 target none) c₁)
    (hr : Returned (c.stackTop rsp0) c₁ c₂) : Reaches p c₂ { c with mem := c₂.mem } := by
  obtain ⟨a, hcode, hat, hreach⟩ := hin.back hroom hr
  have hreach := (hreach.trans (reaches_cons hcode)).trans (reaches_iretq hcode.2 hat)
  simp only [exec, mem_pushed, if_true, cr3_of_returned hin hr] at hreach
  exact hreach

theorem returns_error {code : ℕ} (hroom : 8 * 22 ≤ c.stackTop rsp0)
    (hin : Enters p pushed h [.addq 8, .sti, .iretq] ret (c.interrupt rsp0 target (some code)) c₁)
    (hr : Returned (c.stackTop rsp0) c₁ c₂) : Reaches p c₂ { c with mem := c₂.mem } := by
  obtain ⟨a, hcode, hat, hreach⟩ := hin.back hroom hr
  have hreach := (hreach.trans (reaches_cons hcode)).trans (reaches_cons hcode.2)
  have hreach := hreach.trans (reaches_iretq hcode.2.2 (Stack.at_cons.1 hat).2)
  simp only [exec, mem_pushed, if_true, cr3_of_returned hin hr] at hreach
  exact hreach

theorem returns_syscall (hroom : 8 * 20 ≤ c.stackTop rsp0)
    (hin : Enters p pushed.tail h [.iretq] ret (c.interrupt rsp0 target none) c₁)
    (hr : Returned (c.stackTop rsp0) c₁ c₂) :
    Reaches p c₂ { c with
      mem := c₂.mem
      reg := Function.update c.reg .rax (c₂.reg .rax) } := by
  obtain ⟨a, hcode, hat, hreach⟩ := hin.back hroom hr
  have hreach := hreach.trans (reaches_iretq hcode hat)
  have hreg : (fun r => if r ∈ pushed.tail then c.reg r else c₂.reg r)
      = Function.update c.reg .rax (c₂.reg .rax) := by
    funext r
    by_cases hrax : r = .rax
    · simp [hrax, mem_pushed_tail]
    · simp [hrax, mem_pushed_tail]
  rw [hreg, cr3_of_returned hin hr] at hreach
  exact hreach

end Interrupt

/-- Every routine whose function returns brings the code it has interrupted back, with all its
registers but the result of a system call, if it drops the error code the processor has pushed.  The
function of an exception with an error code is called with the code and the address. -/
theorem isr_restores (p : Program) (c : Cpu) (rsp0 : ℕ) {n : ℕ} {err : Option ℕ}
    (hn : n ∈ vectors) (herr : err.isSome = pushesError n)
    (hdrop : pushesError n = true → n = 13 ∨ n = 14) (hroom : 8 * 22 ≤ c.stackTop rsp0) :
    ∃ c₁, Reaches p (c.interrupt rsp0 (p.isr n) err) c₁ ∧ c₁.rip = p.handler (isrHandler n) ∧
      (if pushesError n then err = some (c₁.reg .rdi) ∧ c₁.reg .rsi = c.rip else c₁.reg = c.reg) ∧
      ∀ c₂, Returned (c.stackTop rsp0) c₁ c₂ → Reaches p c₂ (resumed n c c₂) := by
  have hcode := p.loaded n hn
  by_cases herror : pushesError n = true
  · obtain ⟨code, rfl⟩ : ∃ code, err = some code := Option.isSome_iff_exists.1 (herr.trans herror)
    have hcode : CodeAt p (p.isr n) (isrError (isrHandler n)) ∧ n ≠ 128 := by
      rcases hdrop herror with rfl | rfl
      · exact ⟨hcode, by decide⟩
      · exact ⟨hcode, by decide⟩
    have hat := Stack.pushes_at (c.frame (some code)).reverse c.mem
      (show _ ≤ c.stackTop rsp0 by simp [frame]; omega)
    rw [← interrupt_mem c rsp0 (p.isr n), List.length_reverse, ← interrupt_rsp c rsp0 (p.isr n),
      List.reverse_reverse] at hat
    obtain ⟨h0, hat⟩ := Stack.at_cons.1 hat
    obtain ⟨h1, -⟩ := Stack.at_cons.1 hat
    have hrsp : 120 ≤ (c.interrupt rsp0 (p.isr n) (some code)).rsp := by
      rw [interrupt_rsp, length_frame, Option.toList_some, List.length_singleton]
      omega
    obtain ⟨c₁, ret, hrdi, hrsi, hin⟩ := enters_error hrsp hcode.1
    refine ⟨c₁, hin.reach, hin.rip, ?_, fun c₂ hr => ?_⟩
    · rw [if_pos herror, hrdi, hrsi, h0, h1]
      exact ⟨rfl, rfl⟩
    · rw [resumed, if_neg hcode.2]
      exact returns_error hroom hin hr
  · obtain rfl : err = none := by
      rw [Bool.not_eq_true] at herror
      simpa [herror] using herr
    simp only [if_neg herror]
    by_cases hsys : n = 128
    · subst hsys
      obtain ⟨c₁, ret, hreg, hin⟩ := enters_syscall (e := c.interrupt rsp0 (p.isr 128) none) hcode
      exact ⟨c₁, hin.reach, hin.rip, hreg, fun c₂ hr => returns_syscall (by omega) hin hr⟩
    · have h13 : n ≠ 13 := by rintro rfl; exact herror rfl
      have h14 : n ≠ 14 := by rintro rfl; exact herror rfl
      rw [isrCode_plain h13 h14 hsys] at hcode
      obtain ⟨c₁, ret, hreg, hin⟩ := enters_plain (e := c.interrupt rsp0 (p.isr n) none) hcode
      refine ⟨c₁, hin.reach, hin.rip, hreg, fun c₂ hr => ?_⟩
      rw [resumed, if_neg hsys]
      exact returns_plain (by omega) hin hr

/-! ## A program -/

theorem length_isrPlain (h : Handler) : Code.length Instr.size (isrPlain h) = 55 := by
  have hpush : Code.length Instr.size (pushed.map .pushq) = 23 := by decide
  have hpop : Code.length Instr.size (pushed.reverse.map .popq) = 23 := by decide
  simp only [isrPlain, Code.length_append, Code.length_cons, Code.length_nil, hpush, hpop,
    Instr.size]

theorem length_isrCode (n : ℕ) : Code.length Instr.size (isrCode n) ≤ 128 := by
  have hplain : ∀ h, Code.length Instr.size (isrPlain h) ≤ 128 := fun h => by
    rw [length_isrPlain]
    decide
  unfold isrCode
  split_ifs
  · decide
  · decide
  · exact hplain _
  · exact hplain _
  · decide
  · exact hplain _

theorem size_pos : ∀ i : Instr, 0 < i.size
  | .cli | .sti | .call _ | .addq _ | .iretq => by simp [Instr.size]
  | .pushq r | .popq r => by cases r <;> decide
  | .movq off _ => by
    simp only [Instr.size]
    split_ifs <;> decide

/-- The routines 128 bytes apart. -/
def spaced : Program where
  fetch a := Code.find Instr.size (isrCode (a / 128)) (a % 128)
  isr n := 128 * n
  handler _ := 0
  loaded n _ := by
    refine Code.at_find (a := 128 * n) size_pos [] fun off hoff => ?_
    have hlt := Nat.lt_of_lt_of_le hoff (length_isrCode n)
    rw [Code.length_nil, Nat.zero_add, List.nil_append, Nat.mul_add_div (by decide),
      Nat.div_eq_of_lt hlt, Nat.add_zero, Nat.mul_add_mod, Nat.mod_eq_of_lt hlt]

/-- A program that runs. -/
def running : Cpu where
  reg := fun _ => 7
  rip := 0x400000
  rsp := 0x7000
  rflags := 0x202
  cs := 0x1b
  ss := 0x23
  cr3 := 0
  mem := fun _ => 0

theorem isr_restores_timer :
    ∃ c₁, Reaches spaced (running.interrupt 4096 4096 none) c₁ ∧ ∀ c₂, Returned 4096 c₁ c₂ →
      Reaches spaced c₂ { running with mem := c₂.mem } := by
  obtain ⟨c₁, hreach, -, -, hback⟩ := @isr_restores spaced running 4096 32 none
    (by decide) rfl (by decide) (by decide)
  exact ⟨c₁, hreach, hback⟩

end Cpu

end Bgox
