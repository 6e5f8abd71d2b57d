import Bgox.Lib.Table
import Bgox.Proofs.ForkStack
import Bgox.Proofs.Strings
import Bgox.Proofs.Switch

/-!
# How tasks start

A program starts at its entry point with its arguments in the registers `_start` reads, and with
nothing of what other tasks had in theirs (`program_starts`).

A child of `fork` starts behind the system call of its parent, with the registers its parent has
come with and 0 in `rax` (`child_resumes`): `isr128` has saved them in the words of `kstack` from
which `isr32` takes them.
-/

namespace Bgox

open Run (Reach bind_eq_ok)

/-! ## Programs -/

section Program

variable {argc entry ustack isr32 : ℕ} {argv : ℕ → ℕ}

/-- The words below `rax`: the arguments, and numbers from 2 on in the others. -/
theorem elfKstack_arg (hargc : argc ≤ 14) {i : ℕ} (hi : i < 14) :
    elfKstack argc argv entry ustack isr32 (505 - i) = if i < argc then argv i else i + 2 := by
  simp only [elfKstack]
  iterate 6 rw [Function.update_of_ne (by omega)]
  by_cases harg : i < argc
  · rw [if_pos harg, foldl_update_of_notMem fun j hj => by
      rw [List.mem_range'_1] at hj
      omega]
    refine foldl_update_of_mem (g := fun i => 505 - i) (List.mem_range.2 harg) fun j hj heq => ?_
    rw [List.mem_range] at hj
    omega
  · have hword := foldl_update_of_mem (f := fun i => argc + 1 + i) (g := fun i => 506 - argc - i)
      (i := i + 1 - argc) (l := List.range' 1 14)
      (k := (List.range argc).foldl (fun k i => Function.update k (505 - i) (argv i))
        (Function.update (fun _ => 0) 506 argc))
      (List.mem_range'_1.2 (by omega)) fun j hj heq => by
        rw [List.mem_range'_1] at hj
        omega
    simp only [show 506 - argc - (i + 1 - argc) = 505 - i by omega] at hword
    rw [if_neg harg, hword]
    omega

theorem elfKstack_argc (hargc : argc ≤ 14) (argv : ℕ → ℕ) (entry ustack isr32 : ℕ) :
    elfKstack argc argv entry ustack isr32 506 = argc := by
  simp only [elfKstack]
  iterate 6 rw [Function.update_of_ne (by omega)]
  rw [foldl_update_of_notMem fun j hj => by rw [List.mem_range'_1] at hj; omega,
    foldl_update_of_notMem fun j hj => by rw [List.mem_range] at hj; omega]
  exact Function.update_self ..

/-- What `iretq` takes, and the address in `isr32`. -/
theorem elfKstack_frame (argc : ℕ) (argv : ℕ → ℕ) (entry ustack isr32 : ℕ) :
    elfKstack argc argv entry ustack isr32 507 = entry ∧
    elfKstack argc argv entry ustack isr32 508 = 0x1b ∧
    elfKstack argc argv entry ustack isr32 509 = 0x200286 ∧
    elfKstack argc argv entry ustack isr32 510 = (ustack + 8 * 511) % 2 ^ 64 ∧
    elfKstack argc argv entry ustack isr32 511 = 0x23 ∧
    elfKstack argc argv entry ustack isr32 491 = (isr32 + 29) % 2 ^ 64 := by
  refine ⟨?_, ?_, ?_, ?_, ?_, ?_⟩ <;>
    simp only [elfKstack, Function.update_self, ne_eq, Nat.reduceEqDiff, not_false_eq_true,
      Function.update_of_ne]

/-- The registers the arguments are in, one after the other. -/
theorem slot_arg : ∀ i < 14, Cpu.slot (pushed.tail.getD i .rax) = 505 - i := by decide

theorem crtStart_eq {c : Cpu} {argv0 : ℕ} (hrax : c.reg .rax = argc) (hrbx : c.reg .rbx = argv0)
    (hargc : argc < 2 ^ 31) : crtStart c = ((argc : ℤ), [argv0]) := by
  rw [crtStart, hrax, hrbx, int_of_lt (by omega) (by omega)]

end Program

/-! ## Children -/

theorem slot_tail (t : ℕ) {r : Reg} (hr : r ≠ .rax) :
    kstackAt t (Cpu.slot r) = kstackAt t 491 + 8 + 8 * pushed.tail.reverse.idxOf r := by
  have hslot : Cpu.slot r = 492 + pushed.tail.reverse.idxOf r := by
    cases r with
    | rax => exact absurd rfl hr
    | _ => decide
  rw [hslot]
  simp only [kstackAt]
  omega

theorem slot_bounds {r : Reg} (hr : r ≠ .rax) : 491 < Cpu.slot r ∧ Cpu.slot r < 506 := by
  cases r with
  | rax => exact absurd rfl hr
  | _ => decide

namespace System

variable (kstack : ℕ → ℕ) (stack : List ℕ) (ustack isr32 : ℕ)

/-- The registers are the parent's. -/
theorem childKstack_copied {i : ℕ} (hi : 491 < i) (hlt : i < 506) :
    childKstack kstack stack ustack isr32 i = kstack i := by
  simp only [childKstack]
  iterate 7 rw [Function.update_of_ne (by omega)]
  rw [if_pos (by omega)]

/-- What `iretq` takes but for the stack pointer, the result of the call, and the address in
`isr32`. -/
theorem childKstack_frame : childKstack kstack stack ustack isr32 507 = kstack 506 ∧
    childKstack kstack stack ustack isr32 508 = 0x1b ∧
    childKstack kstack stack ustack isr32 509 = 0x200286 ∧
    childKstack kstack stack ustack isr32 511 = 0x23 ∧
    childKstack kstack stack ustack isr32 506 = 0 ∧
    childKstack kstack stack ustack isr32 491 = (isr32 + 29) % 2 ^ 64 := by
  refine ⟨?_, ?_, ?_, ?_, ?_, ?_⟩ <;>
    simp only [childKstack, Function.update_self, ne_eq, Nat.reduceEqDiff, not_false_eq_true,
      Function.update_of_ne]

/-- The task that `elf_run_bin` has made. -/
theorem elfRunBinContext_ok {s s' : System} {f : Vm.Elf} {argc isr32 : ℕ} {argv : ℕ → ℕ}
    {ctx : Context} (h : s.elfRunBinContext f argc argv isr32 = .ok (s', ctx)) :
    ∃ proc, s'.procs = s.procs ++ [proc] ∧
      ctx = ⟨elfKstack argc argv (Vm.readLe f.image 24 8) proc.ustack isr32,
        proc.pml4 * 4096⟩ := by
  obtain ⟨s'', hrun, h⟩ := bind_eq_ok.1 h
  obtain ⟨rfl, rfl⟩ := Prod.mk.inj (Except.ok.inj h)
  obtain ⟨vm, pml4a, ustack, vm', -, -, rfl⟩ := elfRunBin_ok.1 hrun
  refine ⟨⟨pml4a, ustack⟩, rfl, ?_⟩
  simp [newest]

/-- The child that `sys_fork` has made. -/
theorem sysForkContext_ok {s s' : System} {parent : Proc} {kstack : ℕ → ℕ} {isr32 : ℕ}
    {vmas : List Vm.Vma} {file : ℕ → ℕ} {ctx : Context}
    (h : s.sysForkContext parent kstack isr32 vmas file = .ok (s', ctx)) :
    ∃ proc words, s'.procs = s.procs ++ [proc] ∧ s.stackRead parent = .ok words ∧
      words.length = 512 ∧
      ctx = ⟨childKstack kstack words proc.ustack isr32, proc.pml4 * 4096⟩ := by
  obtain ⟨⟨s'', ck⟩, hfork, h⟩ := bind_eq_ok.1 h
  obtain ⟨rfl, rfl⟩ := Prod.mk.inj (Except.ok.inj h)
  have hplain : s.sysFork parent vmas file = .ok s'' := by
    rw [← sysForkKstack_map s parent kstack isr32, hfork]
    rfl
  obtain ⟨t, ret, words, hread, hlen, hprocs, hk⟩ := sysFork_kstack hplain kstack isr32
  obtain ⟨-, rfl⟩ := Prod.mk.inj (Except.ok.inj (hfork.symm.trans hk))
  refine ⟨⟨t, stackAt ret⟩, words, hprocs, hread, hlen, ?_⟩
  simp [newest, hprocs]

end System

namespace Machine

variable {p : Program}

/-- The first time a program runs it is at its entry point, in user mode and on its own stack and
page tables.  Its registers are its arguments and constants, so that nothing of another task is left
in them; without an argument `_start` passes 2 on for the address of the first. -/
theorem program_starts {m₀ m₁ m₂ m₃ : Machine} {sys sys' : System} {f : Vm.Elf} {ctx : Context}
    {t argc : ℕ} {argv : ℕ → ℕ} {first : Bool} (h : Wf m₀) (hargc : argc ≤ 14)
    (hisr : p.isr 32 + 29 < 2 ^ 64)
    (hload : sys.elfRunBinContext f argc argv (p.isr 32) = .ok (sys', ctx))
    (hctx : ctx.Filled m₀.cpu.mem t) (hnew : Step p m₀ (.create t) m₁)
    (hrun : Reach (StepBut p t) m₁ m₂) (hin : Step p m₂ (.schedule t first) m₃) :
    ∃ proc c, sys'.procs = sys.procs ++ [proc] ∧ Cpu.Reaches p m₃.cpu c ∧
      c.rip = Vm.readLe f.image 24 8 ∧ c.cs = 0x1b ∧ c.ss = 0x23 ∧
      c.rsp = (proc.ustack + 8 * 511) % 2 ^ 64 ∧ c.rflags = 0x200286 ∧
      c.cr3 = proc.pml4 * 4096 ∧ c.reg .rax = argc ∧
      (∀ i < 14, c.reg (pushed.tail.getD i .rax) = if i < argc then argv i else i + 2) ∧
      crtStart c = ((argc : ℤ), [if 0 < argc then argv 0 else 2]) := by
  obtain ⟨proc, hprocs, rfl⟩ := System.elfRunBinContext_ok hload
  obtain ⟨hrip, hcs, hrflags, hrsp, hss, hcode⟩ :=
    elfKstack_frame argc argv (Vm.readLe f.image 24 8) proc.ustack (p.isr 32)
  rw [Nat.mod_eq_of_lt hisr] at hcode
  obtain ⟨hcr3, hreach⟩ := first_run h hctx hcode hnew hrun hin
  have harg : ∀ i < 14, elfKstack argc argv (Vm.readLe f.image 24 8) proc.ustack (p.isr 32)
      (Cpu.slot (pushed.tail.getD i .rax)) = if i < argc then argv i else i + 2 := fun i hi => by
    rw [slot_arg i hi]
    exact elfKstack_arg hargc hi
  have hrax := elfKstack_argc hargc argv (Vm.readLe f.image 24 8) proc.ustack (p.isr 32)
  refine ⟨proc, _, hprocs, hreach, hrip, hcs, hss, hrsp, hrflags, hcr3, hrax, harg, ?_⟩
  exact crtStart_eq hrax (harg 0 (by decide)) (by omega)

/-- The boot task starts with `idle_proc`, in the kernel and on its own stack. -/
theorem idle_starts {m₀ m₁ m₂ m₃ : Machine} {t idleProc cr3 : ℕ} {first : Bool} (h : Wf m₀)
    (hisr : p.isr 32 + 29 < 2 ^ 64)
    (hctx : Context.Filled ⟨bootKstack t idleProc (p.isr 32), cr3⟩ m₀.cpu.mem t)
    (hnew : Step p m₀ (.create t) m₁) (hrun : Reach (StepBut p t) m₁ m₂)
    (hin : Step p m₂ (.schedule t first) m₃) :
    ∃ c, Cpu.Reaches p m₃.cpu c ∧ c.rip = idleProc ∧ c.cs = 0x08 ∧ c.ss = 0x10 ∧
      c.rsp = kstackAt t 511 ∧ c.rflags = 0x200202 ∧ ∀ r, c.reg r = 0 := by
  have hcode : bootKstack t idleProc (p.isr 32) 491 = p.isr 32 + 29 := by
    rw [bootKstack, Function.update_self, Nat.mod_eq_of_lt hisr]
  obtain ⟨-, hreach⟩ := first_run h hctx hcode hnew hrun hin
  refine ⟨_, hreach, ?_, ?_, ?_, ?_, ?_, fun r => ?_⟩
  case refine_6 => cases r <;> simp [bootKstack, Cpu.slot, pushed]
  all_goals simp [bootKstack]

/-- A system call has saved the registers where `isr32` takes them from, and the processor the
address it returns to one word above. -/
theorem Wf.syscall_saved {m : Machine} (h : Wf m) (huser : m.cpu.user = true)
    (halign : m.running % 16 = 0) :
    ∃ c₁, Cpu.Reaches p (m.cpu.interrupt m.rsp0 (p.isr 128) none) c₁ ∧
      c₁.rip = p.handler .syscall ∧ c₁.rsp = kstackAt m.running 491 ∧ c₁.reg = m.cpu.reg ∧
      c₁.mem (kstackAt m.running 506) = m.cpu.rip ∧
      ∀ r, r ≠ .rax → c₁.mem (kstackAt m.running (Cpu.slot r)) = m.cpu.reg r := by
  have htop : m.cpu.stackTop m.rsp0 = kstackAt m.running 511 := by
    rw [Cpu.stackTop, if_pos huser, h.rsp0]
    simp only [kstackAt]
    omega
  obtain ⟨c₁, ret, hreg, hin⟩ := Cpu.enters_syscall (p := p)
    (e := m.cpu.interrupt m.rsp0 (p.isr 128) none) (p.loaded 128 (by decide))
  have hcalled := hin.called (by rw [htop]; simp [kstackAt, Cpu.frame, pushed])
  rw [htop] at hcalled
  have hrsp : c₁.rsp = kstackAt m.running 491 := by
    have hroom := hcalled.room
    simp only [kstackAt, Cpu.length_frame, pushed, List.tail_cons, List.length_cons,
      List.length_nil, Option.toList_none] at hroom ⊢
    omega
  obtain ⟨-, hwords⟩ := Stack.at_cons.1 hcalled.words
  obtain ⟨hregs, hframe⟩ := Stack.at_append.1 hwords
  rw [hrsp] at hregs hframe
  refine ⟨c₁, hin.reach, hin.rip, hrsp, hreg, (Stack.at_cons.1 hframe).1, fun r hr => ?_⟩
  have hword := hregs.idxOf (List.mem_reverse.2 (Cpu.mem_pushed_tail.2 hr))
  rwa [← slot_tail _ hr] at hword

/-- A task in the kernel, with a second one whose stack has been filled but that is not yet in the
list. -/
def filled (ctx : Context) : Machine where
  cpu :=
    { Cpu.running with
      cs := 0x08
      rsp := kstackAt 0x10000 400
      mem := fun a =>
        if a = 0x20000 then kstackAt 0x20000 491
        else if a = cr3At 0x20000 then ctx.cr3
        else ctx.kstack ((a - kstackAt 0x20000 0) / 8) }
  rsp0 := kstackAt 0x10000 511
  running := 0x10000
  tasks := [0x10000]

theorem filled_filled (ctx : Context) : ctx.Filled (filled ctx).cpu.mem 0x20000 := by
  refine ⟨fun i hi => ?_, rfl⟩
  have hne : kstackAt 0x20000 i ≠ 0x20000 ∧ kstackAt 0x20000 i ≠ cr3At 0x20000 := by
    simp only [kstackAt, cr3At]
    omega
  refine (if_neg hne.1).trans ((if_neg hne.2).trans (congrArg ctx.kstack ?_))
  simp only [kstackAt]
  omega

theorem filled_user (ctx : Context) : (filled ctx).cpu.user = false := by
  simp [filled, Cpu.user]

theorem filled_rsp (ctx : Context) : kstackAt 0x10000 0 ≤ (filled ctx).cpu.rsp ∧
    (filled ctx).cpu.rsp ≤ kstackAt 0x10000 511 := by
  simp [filled, kstackAt]

theorem filled_wf (ctx : Context) : Wf (filled ctx) where
  running := List.mem_cons_self
  rsp0 := rfl
  apart _ ht _ ht' hne :=
    absurd ((List.mem_singleton.1 ht).trans (List.mem_singleton.1 ht').symm) hne
  onStack _ := filled_rsp ctx
  saved _ ht hne := absurd (List.mem_singleton.1 ht) hne

theorem filled_create (ctx : Context) : Step p (filled ctx) (.create 0x20000)
    { filled ctx with tasks := [0x20000, 0x10000] } :=
  .create (filled_user ctx) (fun t ht => by rw [List.mem_singleton.1 ht]; exact apart_two.symm) rfl

theorem filled_schedule (ctx : Context) :
    Step p { filled ctx with tasks := [0x20000, 0x10000] } (.schedule 0x20000 false)
      (schedule { filled ctx with tasks := [0x20000, 0x10000] } 0x20000 false) :=
  .schedule (filled_user ctx) (by simp [filled, kstackAt]) List.mem_cons_self

theorem exists_elfRunBin : ∃ sys sys', System.elfRunBin sys (System.twoSegments 0x401040)
    = .ok sys' := by
  obtain ⟨s₀, h₀, -, hsmall⟩ := System.start_small
  obtain ⟨lab, hinv⟩ := System.start_inv h₀ hsmall.clean
  obtain ⟨s, p, mm, img, hok, -⟩ := hinv.exists_image (f := System.twoSegments 0x401040)
    hsmall.clean hsmall.supplies (by decide) (System.twoSegments_below _ (by decide))
    (Or.inr ⟨rfl, hsmall.notMem_succ, System.adjacent_smallPages⟩)
  exact ⟨_, s, System.elfRunBin_of_mm hok⟩

/-- A program with two segments and one argument, which is at 0x5000. -/
theorem program_starts_one : ∃ sys sys' ctx m₃ c, System.elfRunBinContext sys
      (System.twoSegments 0x401040) 1 (fun _ => 0x5000) (Cpu.spaced.isr 32) = .ok (sys', ctx) ∧
    Cpu.Reaches Cpu.spaced m₃ c ∧ c.rip = Vm.readLe (System.twoSegments 0x401040).image 24 8 ∧
    crtStart c = (1, [0x5000]) := by
  obtain ⟨sys, sys', hload⟩ := exists_elfRunBin
  obtain ⟨ctx, hctx⟩ : ∃ ctx, sys.elfRunBinContext (System.twoSegments 0x401040) 1
      (fun _ => 0x5000) (Cpu.spaced.isr 32) = .ok (sys', ctx) :=
    ⟨_, bind_eq_ok.2 ⟨_, hload, rfl⟩⟩
  obtain ⟨proc, c, -, hreach, hrip, -, -, -, -, -, -, -, hstart⟩ := program_starts (p := Cpu.spaced)
    (filled_wf ctx) (by decide) (by decide) hctx (filled_filled ctx) (filled_create ctx) Reach.start
    (filled_schedule ctx)
  exact ⟨sys, sys', ctx, _, c, hctx, hreach, hrip, hstart⟩

/-- The child of a task that has called `fork` goes on behind the call, with the registers the task
had and 0 for the result, if what has been saved of them is still there when `sys_fork` copies the
stack. -/
theorem child_resumes {m : Machine} (h : Wf m) (huser : m.cpu.user = true)
    (halign : m.running % 16 = 0) (hisr : p.isr 32 + 29 < 2 ^ 64) :
    ∃ c₁, Cpu.Reaches p (m.cpu.interrupt m.rsp0 (p.isr 128) none) c₁ ∧
      c₁.rip = p.handler .syscall ∧ c₁.reg = m.cpu.reg ∧
      ∀ {m₀ m₁ m₂ m₃ : Machine} {sys sys' : System} {parent : Proc} {vmas : List Vm.Vma}
        {file kstack : ℕ → ℕ} {ctx : Context} {child : ℕ} {first : Bool},
        (∀ i, 491 ≤ i → i < 511 → kstack i = c₁.mem (kstackAt m.running i)) →
        sys.sysForkContext parent kstack (p.isr 32) vmas file = .ok (sys', ctx) → Wf m₀ →
        ctx.Filled m₀.cpu.mem child → Step p m₀ (.create child) m₁ →
        Reach (StepBut p child) m₁ m₂ → Step p m₂ (.schedule child first) m₃ →
        ∃ proc words c, sys'.procs = sys.procs ++ [proc] ∧ sys.stackRead parent = .ok words ∧
          Cpu.Reaches p m₃.cpu c ∧ c.reg = Function.update m.cpu.reg .rax 0 ∧
          c.rip = m.cpu.rip ∧ c.cs = 0x1b ∧ c.ss = 0x23 ∧ c.rflags = 0x200286 ∧
          c.rsp = (proc.ustack + 8 * (words.findIdx (fun w => w != 0) + 1)) % 2 ^ 64 ∧
          c.cr3 = proc.pml4 * 4096 := by
  obtain ⟨c₁, hreach, hrip, -, hreg, hret, hslot⟩ := h.syscall_saved (p := p) huser halign
  refine ⟨c₁, hreach, hrip, hreg, fun {m₀ m₁ m₂ m₃ sys sys' parent vmas file kstack ctx child first}
    hcopy hfork hwf hctx hnew hrun hin => ?_⟩
  obtain ⟨proc, words, hprocs, hread, hlen, rfl⟩ := System.sysForkContext_ok hfork
  have hword : ∀ i, 491 < i → i < 506 → System.childKstack kstack words proc.ustack (p.isr 32) i
      = c₁.mem (kstackAt m.running i) := fun i hi hlt => by
    rw [System.childKstack_copied _ _ _ _ hi hlt, hcopy i (by omega) (by omega)]
  obtain ⟨hrip', hcs, hrflags, hss, hrax, hcode⟩ :=
    System.childKstack_frame kstack words proc.ustack (p.isr 32)
  have hrsp := System.childKstack_rsp kstack words proc.ustack (p.isr 32) hlen
  rw [Nat.mod_eq_of_lt hisr] at hcode
  obtain ⟨hcr3, hreach⟩ := first_run hwf hctx hcode hnew hrun hin
  refine ⟨proc, words, _, hprocs, hread, hreach, ?_, ?_, hcs, hss, hrflags, hrsp, hcr3⟩
  · funext r
    by_cases hr : r = .rax
    · rw [hr, Function.update_self]
      exact hrax
    · obtain ⟨hlow, hhigh⟩ := slot_bounds hr
      rw [Function.update_of_ne hr, ← hslot r hr]
      exact hword _ hlow hhigh
  · rw [← hret, ← hcopy 506 (by decide) (by decide)]
    exact hrip'

/-- A program has made a system call, and its child is switched to. -/
theorem child_resumes_one : ∃ kstack sys sys' ctx m₃ c,
    System.sysForkContext sys ⟨578, System.stackAt 588⟩ kstack (Cpu.spaced.isr 32) [] (fun _ => 0)
      = .ok (sys', ctx) ∧
    Cpu.Reaches Cpu.spaced m₃ c ∧ c.rip = 0x400000 ∧ c.reg .rbx = 7 ∧ c.reg .rax = 0 := by
  have hwf : Wf { filled ⟨fun _ => 0, 0⟩ with cpu := Cpu.running } :=
    { filled_wf ⟨fun _ => 0, 0⟩ with
      onStack := fun huser => absurd huser (by decide)
      saved := fun t ht hne => absurd (List.mem_singleton.1 ht) hne }
  obtain ⟨c₁, -, -, -, hchild⟩ := child_resumes (p := Cpu.spaced) hwf (by decide) (by decide)
    (by decide)
  obtain ⟨sys, sys', hfork, -⟩ := System.exists_fork System.oneWord
    (fun i => c₁.mem (kstackAt 0x10000 i)) (Cpu.spaced.isr 32)
  obtain ⟨ctx, hctx⟩ : ∃ ctx, sys.sysForkContext ⟨578, System.stackAt 588⟩
      (fun i => c₁.mem (kstackAt 0x10000 i)) (Cpu.spaced.isr 32) [] (fun _ => 0)
      = .ok (sys', ctx) := ⟨_, bind_eq_ok.2 ⟨_, hfork, rfl⟩⟩
  obtain ⟨proc, words, c, -, -, hreach, hreg, hrip, -⟩ := hchild
    (fun _ _ _ => rfl) hctx (filled_wf ctx) (filled_filled ctx) (filled_create ctx) Reach.start
    (filled_schedule ctx)
  refine ⟨_, sys, sys', ctx, _, c, hctx, hreach, hrip, ?_, ?_⟩
  · rw [hreg]
    rfl
  · rw [hreg]
    rfl

end Machine

end Bgox
