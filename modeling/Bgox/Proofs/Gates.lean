import Bgox.Gates
import Bgox.Lib.Run
import Bgox.Proofs.Frames

/-!
# What the tables make the processor do

With the tables of `init_gdt` and `idt_init` the processor gets to the routine of a vector and onto
the stack `set_tss_rsp` has set (`deliver_eq`), and a program gets into the kernel by `int` with 128
only.

`init_gdt` leaves the map of the ports at offset 0 of the TSS, so that what stands there opens ports
to programs (`portAllowed_iff`).
-/

namespace Bgox

open Bits (field pack field_pack_self field_pack_cons)
open Run (bind_eq_ok)

namespace Tables

variable {t : Tables} {n addr dpl : ℕ}

/-! ## The gates -/

/-- What the processor reads from a gate. -/
structure Opens (g addr dpl : ℕ) : Prop where
  type : field 40 5 g = 14
  dpl : field 45 2 g = dpl
  present : field 47 1 g = 1
  selector : field 16 16 g = 0x08
  ist : field 32 3 g = 0
  offset : field 0 16 g + 2 ^ 16 * field 48 48 g = addr

theorem opens_setupGate (t : Tables) (n : ℕ) (haddr : addr < 2 ^ 64) (hdpl : dpl < 4) :
    Opens ((t.setupGate n addr dpl).idt n).bits addr dpl := by
  simp only [setupGate, Function.update_self, GateStr.bits]
  constructor
  · rw [← Bits.field_add 40 4 1]
    simp [field_pack_self, field_pack_cons]
  · simp [field_pack_self, field_pack_cons]
    omega
  · simp [field_pack_self, field_pack_cons]
  · simp [field_pack_self, field_pack_cons]
  · simp [field_pack_self, field_pack_cons]
  · rw [← Bits.field_add 48 16 32]
    simp [field_pack_self, field_pack_cons]
    omega

theorem setupGate_idt_of_ne {m : ℕ} (h : m ≠ n) : (t.setupGate n addr dpl).idt m = t.idt m :=
  Function.update_of_ne h _ _

theorem foldl_idt_of_notMem {isr : ℕ → ℕ} : ∀ {l : List ℕ} {t : Tables}, n ∉ l →
    (l.foldl (fun t n => t.setupGate n (isr n) 0) t).idt n = t.idt n
  | [], _, _ => rfl
  | m :: l, t, h => by
    rw [List.mem_cons, not_or] at h
    rw [List.foldl_cons, foldl_idt_of_notMem h.2, setupGate_idt_of_ne h.1]

theorem foldl_idt_of_mem {isr : ℕ → ℕ} (haddr : isr n < 2 ^ 64) : ∀ {l : List ℕ} {t : Tables},
    n ∈ l → Opens ((l.foldl (fun t n => t.setupGate n (isr n) 0) t).idt n).bits (isr n) 0
  | [], _, h => absurd h (by simp)
  | m :: l, t, h => by
    rw [List.foldl_cons]
    by_cases hl : n ∈ l
    · exact foldl_idt_of_mem haddr hl
    · obtain rfl := (List.mem_cons.1 h).resolve_right hl
      rw [foldl_idt_of_notMem hl]
      exact opens_setupGate t n haddr (by decide)

theorem mem_vectors_iff : n ∈ vectors ↔ n = 128 ∨ n ∈ kernelGates := by
  simp only [vectors, kernelGates, List.mem_cons, List.not_mem_nil, or_false]
  omega

/-- Every routine has its gate; the one for system calls is open to programs. -/
theorem opens_idtInit {isr : ℕ → ℕ} (t : Tables) (hn : n ∈ vectors) (haddr : isr n < 2 ^ 64) :
    Opens ((t.idtInit isr).idt n).bits (isr n) (if n = 128 then 3 else 0) := by
  by_cases hsys : n = 128
  · subst hsys
    exact opens_setupGate _ 128 haddr (by decide)
  · rw [if_neg hsys, idtInit, setupGate_idt_of_ne hsys]
    exact foldl_idt_of_mem haddr ((mem_vectors_iff.1 hn).resolve_left hsys)

theorem idtInit_of_notMem {isr : ℕ → ℕ} (t : Tables) (hn : n ∉ vectors) :
    (t.idtInit isr).idt n = t.idt n := by
  rw [mem_vectors_iff, not_or] at hn
  rw [idtInit, setupGate_idt_of_ne hn.1, foldl_idt_of_notMem hn.2]

/-- The other tables are as they were. -/
theorem idtInit_gdt (isr : ℕ → ℕ) (t : Tables) : (t.idtInit isr).gdt = t.gdt ∧
    (t.idtInit isr).tssAt = t.tssAt ∧ (t.idtInit isr).tss = t.tss := by
  suffices h : ∀ (l : List ℕ) (t : Tables),
      (l.foldl (fun t n => t.setupGate n (isr n) 0) t).gdt = t.gdt ∧
      (l.foldl (fun t n => t.setupGate n (isr n) 0) t).tssAt = t.tssAt ∧
      (l.foldl (fun t n => t.setupGate n (isr n) 0) t).tss = t.tss from h _ t
  intro l
  induction l with
  | nil => exact fun t => ⟨rfl, rfl, rfl⟩
  | cons n l ih => exact fun t => ih _

/-! ## The segments -/

/-- The tables of a kernel that has started, with the stack of a task. -/
def booted (isr : ℕ → ℕ) (tssAt rsp : ℕ) : Tables :=
  (((static tssAt).initGdt).idtInit isr).setTssRsp rsp

variable {isr : ℕ → ℕ} {tssAt rsp : ℕ}

theorem booted_gdt : (booted isr tssAt rsp).gdt = ((static tssAt).initGdt).gdt := by
  rw [booted, setTssRsp, (idtInit_gdt isr _).1]

theorem booted_tssAt : (booted isr tssAt rsp).tssAt = tssAt := by
  rw [booted, setTssRsp, (idtInit_gdt isr _).2.1, initGdt, static]

theorem booted_tss : (booted isr tssAt rsp).tss = { rsp0 := rsp } := by
  rw [booted, setTssRsp, (idtInit_gdt isr _).2.2, initGdt, static]

theorem booted_idt (isr : ℕ → ℕ) (tssAt rsp n : ℕ) :
    (booted isr tssAt rsp).idt n = (((static tssAt).initGdt).idtInit isr).idt n := by
  rw [booted, setTssRsp]

/-- The structure that `init_gdt` fills. -/
def tssDescriptor (tssAt : ℕ) : SysSegmentDescriptor where
  loLimit := sizeofTssT - 1
  loBase := tssAt % 2 ^ 24
  type := 9
  dpl := 0
  p := 1
  hiLimit := 0
  xx1 := 0
  gran := 0
  hiBase := tssAt / 2 ^ 24
  xx2 := 0
  zero := 0
  xx3 := 0

theorem initGdt_gdt (tssAt i : ℕ) : ((static tssAt).initGdt).gdt i =
    if i = 6 then (tssDescriptor tssAt).bits / 2 ^ 64
    else if i = 5 then (tssDescriptor tssAt).bits % 2 ^ 64
    else Gdt.gdt.getD i 0 := by
  have hzero : (static tssAt).gdt 5 + 2 ^ 64 * (static tssAt).gdt 6 = 0 := rfl
  simp only [initGdt, hzero, SysSegmentDescriptor.ofBits, field, Nat.zero_div, Nat.zero_mod,
    Function.update_apply, tssDescriptor]
  rfl

theorem tssDescriptor_fields (h : tssAt < 2 ^ 64) :
    field 40 5 (tssDescriptor tssAt).bits = 9 ∧ field 47 1 (tssDescriptor tssAt).bits = 1 ∧
      field 0 16 (tssDescriptor tssAt).bits = 103 ∧ field 48 4 (tssDescriptor tssAt).bits = 0 ∧
      field 55 1 (tssDescriptor tssAt).bits = 0 ∧
      field 16 24 (tssDescriptor tssAt).bits + 2 ^ 24 * field 56 40 (tssDescriptor tssAt).bits
        = tssAt := by
  simp [SysSegmentDescriptor.bits, tssDescriptor, sizeofTssT, field_pack_self, field_pack_cons]
  omega

/-- The processor finds the TSS. -/
theorem ltr_booted (h : tssAt < 2 ^ 64) :
    (booted isr tssAt rsp).ltr 0x28 = .ok ⟨tssAt, sizeofTssT - 1⟩ := by
  have hlow : (booted isr tssAt rsp).segment 0x28 = .ok ((tssDescriptor tssAt).bits % 2 ^ 64) := by
    rw [segment, booted_gdt, initGdt_gdt]
    rfl
  have hhigh : (booted isr tssAt rsp).segment (0x28 + 8)
      = .ok ((tssDescriptor tssAt).bits / 2 ^ 64) := by
    rw [segment, booted_gdt, initGdt_gdt]
    rfl
  obtain ⟨htype, hp, hlo, hhi, hgran, hbase⟩ := tssDescriptor_fields h
  refine bind_eq_ok.2 ⟨_, hlow, bind_eq_ok.2 ⟨_, hhigh, ?_⟩⟩
  simp only [Nat.mod_add_div, htype, hp, hlo, hhi, hgran, hbase]
  rfl

/-! ## Interrupts -/

variable {c : Cpu} {soft : Bool} {err : Option ℕ}

theorem user_eq (hcs : c.cs = 0x1b ∨ c.cs = 0x08) :
    c.cs % 4 = if c.user = true then 3 else 0 := by
  rcases hcs with hcs | hcs
  · simp [Cpu.user, hcs]
  · simp [Cpu.user, hcs]

theorem gate_booted (haddr : ∀ n ∈ vectors, isr n < 2 ^ 64) (hn : n < 256)
    (hcs : c.cs = 0x1b ∨ c.cs = 0x08) :
    (booted isr tssAt rsp).gate soft n c =
      if n ∈ vectors ∧ (soft = true → c.user = true → n = 128) then
        .ok ((booted isr tssAt rsp).idt n).bits
      else .error (.gp (8 * n + 2 + (if soft then 0 else 1))) := by
  have hlimit : ¬ idtLimit < 16 * n + 15 := by
    simp only [idtLimit]
    omega
  rw [gate, if_neg hlimit]
  by_cases hvec : n ∈ vectors
  · have hopen := opens_idtInit ((static tssAt).initGdt) hvec (haddr n hvec)
    rw [← booted_idt isr tssAt rsp] at hopen
    have hallowed : (soft = true ∧ (if n = 128 then 3 else 0) < if c.user = true then 3 else 0) ↔
        ¬ (soft = true → c.user = true → n = 128) := by
      split_ifs <;> simp [*]
    simp only [hopen.type, hopen.dpl, hopen.present, user_eq hcs, hallowed, hvec, true_and]
    by_cases hint : soft = true → c.user = true → n = 128
    · rw [if_neg (not_not.2 hint), if_pos hint]
      rfl
    · rw [if_pos hint, if_neg hint]
      rfl
  · have hclosed : field 40 5 ((booted isr tssAt rsp).idt n).bits = 0 := by
      rw [booted_idt, idtInit_of_notMem _ hvec, show (static tssAt).initGdt.idt n = {} from rfl]
      decide
    simp only [hclosed, hvec, false_and, if_false]
    rfl

theorem level_booted (hcs : c.cs = 0x1b ∨ c.cs = 0x08) :
    (booted isr tssAt rsp).level 0x08 c = .ok 0 := by
  have hseg : (booted isr tssAt rsp).segment 0x08 = .ok (Gdt.gdt.getD 1 0) := by
    rw [segment, booted_gdt, initGdt_gdt]
    rfl
  refine bind_eq_ok.2 ⟨_, hseg, ?_⟩
  rcases hcs with hcs | hcs
  · rw [hcs]
    decide
  · rw [hcs]
    decide

theorem newStack_booted (hcs : c.cs = 0x1b ∨ c.cs = 0x08) (hrsp : rsp < 2 ^ 64) :
    (booted isr tssAt rsp).newStack ⟨tssAt, sizeofTssT - 1⟩ c 0 0
      = .ok (if c.user = true then rsp else c.rsp) := by
  have hword : field (8 * (4 + 8 * 0)) 64 (booted isr tssAt rsp).tss.bits = rsp := by
    rw [booted_tss]
    simp [TssT.bits, field_pack_self, field_pack_cons]
    omega
  rw [newStack, if_neg (by simp), user_eq hcs, tssWord, hword, booted_tssAt]
  by_cases huser : c.user = true
  · simp [huser, sizeofTssT]
  · simp [huser]

/-- With the tables of the kernel an interrupt gets to its routine, if there is one for the vector:
from a program onto the stack in the TSS, and from the kernel onto the one it is on.  With `int` a
program gets nowhere but to `isr128`. -/
theorem deliver_eq (haddr : ∀ n ∈ vectors, isr n < 2 ^ 64) (htss : tssAt < 2 ^ 64)
    (hrsp : rsp < 2 ^ 64) (hn : n < 256) (hcs : c.cs = 0x1b ∨ c.cs = 0x08) :
    ∃ tr, (booted isr tssAt rsp).ltr 0x28 = .ok tr ∧
      (booted isr tssAt rsp).deliver tr soft n err c =
        if n ∈ vectors ∧ (soft = true → c.user = true → n = 128) then
          .ok (c.interrupt rsp (isr n) err)
        else .error (.gp (8 * n + 2 + (if soft then 0 else 1))) := by
  refine ⟨_, ltr_booted htss, ?_⟩
  rw [deliver, gate_booted haddr hn hcs]
  by_cases hallowed : n ∈ vectors ∧ (soft = true → c.user = true → n = 128)
  · have hopen := opens_idtInit ((static tssAt).initGdt) hallowed.1 (haddr n hallowed.1)
    rw [← booted_idt isr tssAt rsp] at hopen
    rw [if_pos hallowed, if_pos hallowed]
    refine bind_eq_ok.2 ⟨_, rfl, bind_eq_ok.2 ⟨0, ?_, bind_eq_ok.2
      ⟨if c.user = true then rsp else c.rsp, ?_, ?_⟩⟩⟩
    · rw [hopen.selector]
      exact level_booted hcs
    · rw [hopen.ist]
      exact newStack_booted hcs hrsp
    · simp only [hopen.selector, hopen.offset, hopen.type, user_eq hcs, Cpu.interrupt, Cpu.stackTop,
        Cpu.gateFlags]
      by_cases huser : c.user = true
      · simp only [if_pos huser]
        rfl
      · simp only [if_neg huser]
        rfl
  · rw [if_neg hallowed, if_neg hallowed]
    rfl

/-- A system call and a breakpoint of a program, and a tick in the kernel, with the routines 128
bytes apart. -/
theorem deliver_eq_running :
    ∃ tr, (booted Cpu.spaced.isr 0x9000 0x8000).ltr 0x28 = .ok tr ∧
      (booted Cpu.spaced.isr 0x9000 0x8000).deliver tr true 128 none Cpu.running
        = .ok (Cpu.running.interrupt 0x8000 (Cpu.spaced.isr 128) none) ∧
      (booted Cpu.spaced.isr 0x9000 0x8000).deliver tr true 3 none Cpu.running
        = .error (.gp 26) ∧
      (booted Cpu.spaced.isr 0x9000 0x8000).deliver tr false 32 none
          { Cpu.running with cs := 0x08, rsp := 0x7000 }
        = .ok (Cpu.interrupt 0x8000 (Cpu.spaced.isr 32) none
          { Cpu.running with cs := 0x08, rsp := 0x7000 }) := by
  have haddr : ∀ n ∈ vectors, Cpu.spaced.isr n < 2 ^ 64 := by decide
  obtain ⟨tr, htr, hcall⟩ := @deliver_eq 128 Cpu.spaced.isr 0x9000 0x8000 Cpu.running true none
    haddr (by decide) (by decide) (by decide) (Or.inl rfl)
  obtain ⟨tr₁, htr₁, hbreak⟩ := @deliver_eq 3 Cpu.spaced.isr 0x9000 0x8000 Cpu.running true none
    haddr (by decide) (by decide) (by decide) (Or.inl rfl)
  obtain ⟨tr₂, htr₂, htick⟩ := @deliver_eq 32 Cpu.spaced.isr 0x9000 0x8000
    { Cpu.running with cs := 0x08, rsp := 0x7000 } false none haddr (by decide) (by decide)
    (by decide) (Or.inr rfl)
  obtain rfl := Except.ok.inj (htr.symm.trans htr₁)
  obtain rfl := Except.ok.inj (htr.symm.trans htr₂)
  exact ⟨tr, htr, hcall, hbreak, htick⟩

/-! ## Ports -/

theorem field_eq_zero_iff {i x : ℕ} : field i 1 x = 0 ↔ x.testBit i = false := by
  rw [field, Nat.pow_one, Nat.testBit_eq_decide_div_mod_eq]
  simp only [decide_eq_false_iff_not]
  omega

theorem tss_bits (hrsp : rsp < 2 ^ 64) : (booted isr tssAt rsp).tss.bits = 2 ^ 32 * rsp := by
  rw [booted_tss]
  simp only [TssT.bits, pack, Nat.mod_eq_of_lt hrsp]
  omega

/-- A program may use the ports whose bits in the TSS are 0: all below 824 but for those from 32 to
95, at which the bits are those of `rsp0`. -/
theorem portAllowed_iff (htss : tssAt < 2 ^ 64) (port : ℕ) (hrsp : rsp < 2 ^ 64) :
    ∃ tr, (booted isr tssAt rsp).ltr 0x28 = .ok tr ∧
      ((booted isr tssAt rsp).portAllowed tr port = .ok true ↔
        port < 824 ∧ (port < 32 ∨ 96 ≤ port ∨ rsp.testBit (port - 32) = false)) := by
  refine ⟨_, ltr_booted htss, ?_⟩
  have hmap : field (8 * 102) 16 (booted isr tssAt rsp).tss.bits = 0 := by
    rw [booted_tss]
    simp [TssT.bits, field_pack_self, field_pack_cons]
  rw [portAllowed, hmap, booted_tssAt, if_neg (by simp), tss_bits hrsp]
  by_cases hlimit : port < 824
  · rw [if_neg (by simp only [sizeofTssT]; omega)]
    simp only [Except.ok.injEq, decide_eq_true_eq, field_eq_zero_iff, Nat.testBit_two_pow_mul,
      hlimit, true_and, Nat.mul_zero, Nat.zero_add]
    by_cases hlow : port < 32
    · simp [hlow, Nat.not_le.2 hlow]
    · by_cases hhigh : 96 ≤ port
      · have hzero : rsp.testBit (port - 32) = false := Nat.testBit_lt_two_pow
          (Nat.lt_of_lt_of_le hrsp (Nat.pow_le_pow_right Nat.two_pos (by omega)))
        simp [hhigh, hzero]
      · simp [hlow, hhigh, Nat.not_lt.1 hlow]
  · rw [if_pos (by simp only [sizeofTssT]; omega)]
    simp [hlimit]

/-- A program can send commands to the keyboard controller. -/
theorem portAllowed_iff_keyboard :
    ∃ tr, (booted Cpu.spaced.isr 0x9000 0xffffffff80200000).ltr 0x28 = .ok tr ∧
      (booted Cpu.spaced.isr 0x9000 0xffffffff80200000).portAllowed tr 0x64 = .ok true := by
  obtain ⟨tr, htr, hport⟩ := @portAllowed_iff Cpu.spaced.isr 0x9000 0xffffffff80200000 (by decide)
    0x64 (by decide)
  exact ⟨tr, htr, hport.2 (by decide)⟩

end Tables

end Bgox
