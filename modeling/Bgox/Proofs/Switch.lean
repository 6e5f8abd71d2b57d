import Bgox.Proofs.Frames
import Bgox.Switch

/-!
# Tasks that are switched to and from

A task is back where it was when it is switched to again (`context_kept`): as long as the functions
of the kernel are `Contained`, nothing is stored into the words a switch goes by but by the task
itself, be it by an interrupt, a routine or a switch between others.  A task that runs for the first
time leaves `isr32` behind its call, and takes its registers from `kstack` (`first_run`).
-/

namespace Bgox

open Run (Reach)

namespace Cpu

variable {p : Program} {c : Cpu} {t : ℕ} {k : ℕ → ℕ}

/-! ## The first time -/

/-- The word of `kstack` a register is taken from. -/
def slot (r : Reg) : ℕ := 506 - pushed.idxOf r

theorem map_slot : pushed.reverse.map slot = List.range' 492 15 := by decide

/-- The address `&isr32+29` is the one behind the call. -/
theorem codeAt_isr32 (p : Program) :
    CodeAt p (p.isr 32 + 29) (pushed.reverse.map .popq ++ [.sti, .iretq]) := by
  have hcode : CodeAt p (p.isr 32) isr32 := p.loaded 32 (by decide)
  rw [isr32, isrPlain, List.append_assoc] at hcode
  exact (Code.at_append.1 hcode).2

theorem at_kstack {a n : ℕ} (h : ∀ i, a ≤ i → i < a + n → c.mem (kstackAt t i) = k i) :
    Stack.At c.mem (kstackAt t a) ((List.range' a n).map k) := fun i hi => by
  rw [List.length_map, List.length_range'] at hi
  have hword := h (a + i) (by omega) (by omega)
  rw [show kstackAt t a + 8 * i = kstackAt t (a + i) by simp only [kstackAt]; omega, hword]
  simp

/-- Behind the call in `isr32`, with the words of `kstack` from 492 on to come. -/
theorem reaches_first (hk : ∀ i, 492 ≤ i → i < 512 → c.mem (kstackAt t i) = k i)
    (hrip : c.rip = p.isr 32 + 29) (hrsp : c.rsp = kstackAt t 492) :
    Reaches p c { c with
      reg := fun r => k (slot r)
      rip := k 507
      cs := k 508
      rflags := k 509
      rsp := k 510
      ss := k 511 } := by
  obtain ⟨hpops, hpost⟩ := Code.at_append.1 (codeAt_isr32 p)
  have hregs : Stack.At c.mem (kstackAt t 492) (pushed.reverse.map fun r => k (slot r)) := by
    have hat := at_kstack (c := c) (t := t) (k := k) (a := 492) (n := 15)
      fun i hi hret => hk i hi (by omega)
    rwa [← map_slot, List.map_map] at hat
  have hframe : Stack.At c.mem (kstackAt t 507) [k 507, k 508, k 509, k 510, k 511] :=
    at_kstack (n := 5) fun i hi hret => hk i (by omega) hret
  have hreg : Stack.pops c.mem pushed.reverse c.rsp c.reg = fun r => k (slot r) := by
    funext r
    rw [hrsp, Stack.pops_eq r hregs, if_pos (List.mem_reverse.2 (mem_pushed r))]
  have hreach := reaches_pops pushed.reverse (c := c) (hrip ▸ hpops)
  rw [hreg, hrip, hrsp] at hreach
  have hreach := (hreach.trans (reaches_cons hpost)).trans (reaches_iretq hpost.2 hframe)
  simp only [exec] at hreach
  exact hreach

/-- A routine stores at most one word, at the new stack pointer. -/
theorem exec_mem (c : Cpu) (i : Instr) : (exec p c i).mem = c.mem ∨
    ((exec p c i).rsp = c.rsp - 8 ∧ (exec p c i).cs = c.cs ∧
      ∀ a, a ≠ c.rsp - 8 → (exec p c i).mem a = c.mem a) := by
  rcases i with _ | _ | r | r | _ | h | n | _
  case pushq | call => exact Or.inr ⟨rfl, rfl, fun a ha => Function.update_of_ne ha _ _⟩
  all_goals exact Or.inl rfl

end Cpu

theorem inContext_kstack {t i : ℕ} (h : i < 512) : InContext t (kstackAt t i) :=
  Or.inr (Or.inl (by simp only [kstackAt]; omega))

theorem inContext_of_le {t a : ℕ} (h : kstackAt t 0 ≤ a) (h' : a ≤ kstackAt t 511) :
    InContext t a :=
  Or.inr (Or.inl ⟨h, by simp only [kstackAt] at h' ⊢; omega⟩)

theorem Apart.symm {t t' : ℕ} (h : Apart t t') : Apart t' t := fun a ha ha' => h a ha' ha

namespace Machine

variable {p : Program} {m m' : Machine} {e : Event} {A a : ℕ}

/-- What holds between two steps. -/
structure Wf (m : Machine) : Prop where
  running : m.running ∈ m.tasks
  rsp0 : m.rsp0 = kstackAt m.running 511
  apart : ∀ t ∈ m.tasks, ∀ t' ∈ m.tasks, t ≠ t' → Apart t t'
  onStack : OnStack m.running m.cpu
  saved : ∀ t ∈ m.tasks, t ≠ m.running →
    kstackAt t 0 ≤ m.cpu.mem t ∧ m.cpu.mem t + 8 ≤ kstackAt t 511

/-- The processor pushes onto the stack of the running task. -/
theorem Wf.stackTop_le (h : Wf m) : m.cpu.stackTop m.rsp0 ≤ kstackAt m.running 511 := by
  have hon := h.onStack
  rw [Cpu.stackTop, h.rsp0]
  by_cases huser : m.cpu.user = true
  · rw [if_pos huser]
    omega
  · rw [if_neg huser]
    have hrsp := (hon (by simpa using huser)).2
    omega

theorem interrupt_user (c : Cpu) (rsp0 target : ℕ) (err : Option ℕ) :
    (c.interrupt rsp0 target err).user = false := by
  simp [Cpu.user, Cpu.interrupt]

theorem interrupt_kept (h : Wf m) {target : ℕ} {err : Option ℕ}
    (hon : OnStack m.running (m.cpu.interrupt m.rsp0 target err)) (ha : ¬ InContext m.running a) :
    (m.cpu.interrupt m.rsp0 target err).mem a = m.cpu.mem a := by
  have htop := h.stackTop_le
  have hrsp := (hon (interrupt_user _ _ _ _)).1
  rw [Cpu.interrupt_rsp] at hrsp
  rw [Cpu.interrupt_mem]
  have hpos : 0 < kstackAt m.running 0 := by
    simp only [kstackAt]
    omega
  refine Stack.pushes_frame _ (by rw [List.length_reverse]; omega) ?_
  rw [List.length_reverse]
  by_contra hin
  exact ha (inContext_of_le (by omega) (by omega))

theorem instr_kept {c : Cpu} (huser : m.cpu.user = false)
    (hstep : m.cpu.step p = some c) (hon : OnStack m.running c) (ha : ¬ InContext m.running a) :
    c.mem a = m.cpu.mem a := by
  obtain ⟨i, -, rfl⟩ := Option.map_eq_some_iff.1 hstep
  rcases Cpu.exec_mem (p := p) { m.cpu with rip := m.cpu.rip + i.size } i with
    hmem | ⟨hrsp, hcs, hmem⟩
  · rw [hmem]
  · refine hmem a fun heq => ha ?_
    have hkernel := hon (by rw [Cpu.user, hcs]; exact huser)
    rw [hrsp] at hkernel
    rw [heq]
    exact inContext_of_le hkernel.1 hkernel.2

/-- No step changes the context of a task that is not running. -/
theorem Step.kept (h : Wf m) (hstep : Step p m e m') (hcont : Contained m e m') (hA : A ∈ m.tasks)
    (hne : A ≠ m.running) (ha : InContext A a) : m'.cpu.mem a = m.cpu.mem a := by
  have hout : ¬ InContext m.running a := h.apart A hA m.running h.running hne a ha
  cases hstep with
  | user _ _ hmem _ => exact congrFun hmem a
  | interrupt _ => exact interrupt_kept h hcont.onStack hout
  | instr huser hstep => exact instr_kept huser hstep hcont.onStack hout
  | code => exact hcont.frame rfl A hA hne a ha
  | create => rfl
  | @schedule next first =>
    have hrunning : a ≠ m.running := fun heq => hout (Or.inl heq)
    cases first
    · exact Function.update_of_ne hrunning _ _
    · rfl

theorem switchTo_mem (c : Cpu) {next me : ℕ} (first : Bool) (ha : a ≠ me) :
    (c.switchTo next me first).mem a = c.mem a := by
  cases first
  · exact Function.update_of_ne ha _ _
  · rfl

theorem mem_schedule_tasks {next t : ℕ} {first : Bool} : t ∈ (m.schedule next first).tasks ↔
    t ∈ m.tasks ∧ (first = true → t ≠ m.running) := by
  cases first
  · simp [schedule]
  · simp [schedule]

/-- A task has what it goes by when it is switched to: what it had before, or has just stored. -/
theorem Wf.schedule_saved (h : Wf m) {next t : ℕ} {first : Bool} (huser : m.cpu.user = false)
    (hret : m.cpu.rsp + 8 ≤ kstackAt m.running 511) (ht : t ∈ (m.schedule next first).tasks) :
    kstackAt t 0 ≤ (m.schedule next first).cpu.mem t ∧
      (m.schedule next first).cpu.mem t + 8 ≤ kstackAt t 511 := by
  obtain ⟨hmem, hgone⟩ := mem_schedule_tasks.1 ht
  by_cases heq : t = m.running
  · cases first
    · have hself : (m.schedule next false).cpu.mem t = m.cpu.rsp := by
        rw [heq]
        exact Function.update_self ..
      rw [hself, heq]
      exact ⟨(h.onStack huser).1, hret⟩
    · exact absurd heq (hgone rfl)
  · have hsaved := h.saved t hmem heq
    rwa [← switchTo_mem m.cpu first heq] at hsaved

theorem Wf.schedule (h : Wf m) {next : ℕ} {first : Bool} (huser : m.cpu.user = false)
    (hret : m.cpu.rsp + 8 ≤ kstackAt m.running 511) (hnext : next ∈ (m.schedule next first).tasks) :
    Wf (m.schedule next first) where
  running := hnext
  rsp0 := rfl
  apart t ht t' ht' := h.apart t (mem_schedule_tasks.1 ht).1 t' (mem_schedule_tasks.1 ht').1
  onStack _ := by
    obtain ⟨hlow, hhigh⟩ := h.schedule_saved huser hret hnext
    exact ⟨Nat.le_add_right_of_le hlow, hhigh⟩
  saved t ht _ := h.schedule_saved huser hret ht

theorem Step.wf (h : Wf m) (hstep : Step p m e m') (hcont : Contained m e m') : Wf m' := by
  have hkept : ∀ t ∈ m.tasks, t ≠ m.running → m'.cpu.mem t = m.cpu.mem t := fun t ht hne =>
    hstep.kept h hcont ht hne (Or.inl rfl)
  have hsaved : ∀ t ∈ m.tasks, t ≠ m.running →
      kstackAt t 0 ≤ m'.cpu.mem t ∧ m'.cpu.mem t + 8 ≤ kstackAt t 511 := fun t ht hne => by
    rw [hkept t ht hne]
    exact h.saved t ht hne
  cases hstep with
  | user => exact { h with onStack := hcont.onStack, saved := hsaved }
  | interrupt => exact { h with onStack := hcont.onStack, saved := hsaved }
  | instr => exact { h with onStack := hcont.onStack, saved := hsaved }
  | code => exact { h with onStack := hcont.onStack, saved := hsaved }
  | @create t _ hapart hrsp =>
    refine { h with running := List.mem_cons_of_mem _ h.running, apart := ?_, saved := ?_ }
    · simp only [List.mem_cons]
      rintro x (rfl | hx) y (rfl | hy) hne
      · exact absurd rfl hne
      · exact hapart y hy
      · exact (hapart x hx).symm
      · exact h.apart x hx y hy hne
    · simp only [List.mem_cons]
      rintro x (rfl | hx) hne
      · rw [hrsp]
        simp only [kstackAt]
        omega
      · exact h.saved x hx hne
  | schedule huser hret hnext => exact h.schedule huser hret hnext

/-- Of a switch nothing has to be assumed, nor of a new task. -/
theorem Step.contained_schedule (h : Wf m) {next : ℕ} {first : Bool}
    (hstep : Step p m (.schedule next first) m') : Contained m (.schedule next first) m' := by
  cases hstep with
  | schedule huser hret hnext => exact ⟨(h.schedule huser hret hnext).onStack, nofun⟩

theorem Step.contained_create (h : Wf m) {t : ℕ} (hstep : Step p m (.create t) m') :
    Contained m (.create t) m' := by
  cases hstep with
  | create => exact ⟨h.onStack, nofun⟩

/-! ## Runs -/

/-- A step of a kernel that is as assumed, and not a switch to `A`. -/
def StepBut (p : Program) (A : ℕ) (m : Machine) (e : Event) (m' : Machine) : Prop :=
  Step p m e m' ∧ Contained m e m' ∧ ∀ first, e ≠ .schedule A first

/-- `A` does not run, and has the context it had in `m₁`. -/
structure Keeps (m₁ : Machine) (A : ℕ) (m : Machine) : Prop extends Wf m where
  mem : A ∈ m.tasks
  ne : A ≠ m.running
  kept : ∀ a, InContext A a → m.cpu.mem a = m₁.cpu.mem a

theorem Keeps.step {m₁ : Machine} (h : Keeps m₁ A m) (hstep : StepBut p A m e m') :
    Keeps m₁ A m' := by
  obtain ⟨hstep, hcont, hother⟩ := hstep
  refine { hstep.wf h.toWf hcont with mem := ?_, ne := ?_, kept := fun a ha => ?_ }
  · cases hstep with
    | create => exact List.mem_cons_of_mem _ h.mem
    | schedule => exact mem_schedule_tasks.2 ⟨h.mem, fun _ => h.ne⟩
    | _ => exact h.mem
  · cases hstep with
    | @schedule next first => exact fun heq => hother first (by rw [heq]; rfl)
    | _ => exact h.ne
  · rw [hstep.kept h.toWf hcont h.mem h.ne ha, h.kept a ha]

theorem Keeps.run {m₁ : Machine} (h : Keeps m₁ A m₁) (hrun : Reach (StepBut p A) m₁ m) :
    Keeps m₁ A m :=
  hrun.invariant h fun _ _ _ h hstep => h.step hstep

theorem Keeps.of_schedule (h : Wf m) {next : ℕ} (hout : Step p m (.schedule next false) m')
    (hne : next ≠ m.running) : Keeps m' m.running m' := by
  have hwf := hout.wf h (hout.contained_schedule h)
  cases hout with
  | schedule _ _ _ => exact { hwf with mem := h.running, ne := hne.symm, kept := fun _ _ => rfl }

theorem Keeps.of_create (h : Wf m) {t : ℕ} (hnew : Step p m (.create t) m') : Keeps m' t m' := by
  have hwf := hnew.wf h (hnew.contained_create h)
  cases hnew with
  | create _ hapart _ =>
    refine { hwf with mem := List.mem_cons_self, ne := ?_, kept := fun _ _ => rfl }
    intro heq
    have hself := hapart _ h.running
    rw [← show t = m.running from heq] at hself
    exact hself t (Or.inl rfl) (Or.inl rfl)

/-- A switch to a task that has kept its context. -/
theorem Keeps.schedule {m₁ : Machine} (h : Keeps m₁ A m) {first : Bool}
    (hin : Step p m (.schedule A first) m') :
    m'.running = A ∧ m'.rsp0 = kstackAt A 511 ∧ m'.cpu.rsp = m₁.cpu.mem A + 8 ∧
      m'.cpu.rip = m₁.cpu.mem (m₁.cpu.mem A) ∧ m'.cpu.cr3 = m₁.cpu.mem (cr3At A) ∧
      ∀ a, InContext A a → m'.cpu.mem a = m₁.cpu.mem a := by
  have hmem : ∀ a, InContext A a → m'.cpu.mem a = m₁.cpu.mem a := fun a ha => by
    rw [hin.kept h.toWf (hin.contained_schedule h.toWf) h.mem h.ne ha, h.kept a ha]
  have hself := hmem A (Or.inl rfl)
  obtain ⟨hlow, hhigh⟩ := h.saved A h.mem h.ne
  rw [h.kept A (Or.inl rfl)] at hlow hhigh
  cases hin with
  | schedule _ _ _ =>
    refine ⟨rfl, rfl, congrArg (· + 8) hself, ?_, hmem _ (Or.inr (Or.inr rfl)), hmem⟩
    rw [← hmem _ (inContext_of_le hlow (by omega)), ← hself]
    rfl

/-- A task that has called `schedule(0)` is back behind its call of `switch_to` when it is switched
to again: with its stack as it was, and on its own page tables and interrupt stack. -/
theorem context_kept {m₀ m₁ m₂ m₃ : Machine} {next : ℕ} {first : Bool} (h : Wf m₀)
    (hout : Step p m₀ (.schedule next false) m₁) (hne : next ≠ m₀.running)
    (hrun : Reach (StepBut p m₀.running) m₁ m₂)
    (hin : Step p m₂ (.schedule m₀.running first) m₃) :
    m₃.running = m₀.running ∧ m₃.rsp0 = kstackAt m₀.running 511 ∧
      m₃.cpu.rsp = m₀.cpu.rsp + 8 ∧ m₃.cpu.rip = m₀.cpu.mem m₀.cpu.rsp ∧
      m₃.cpu.cr3 = m₀.cpu.mem (cr3At m₀.running) ∧
      ∀ i < 512, m₃.cpu.mem (kstackAt m₀.running i) = m₀.cpu.mem (kstackAt m₀.running i) := by
  obtain ⟨hrunning, hrsp0, hrsp, hrip, hcr3, hmem⟩ :=
    ((Keeps.of_schedule h hout hne).run hrun).schedule hin
  cases hout with
  | schedule huser hret _ =>
    have hstored : ∀ a, a ≠ m₀.running → (m₀.schedule next false).cpu.mem a = m₀.cpu.mem a :=
      fun a ha => switchTo_mem m₀.cpu false ha
    have hself : (m₀.schedule next false).cpu.mem m₀.running = m₀.cpu.rsp :=
      Function.update_self ..
    have hlow := (h.onStack huser).1
    rw [hself] at hrsp hrip
    refine ⟨hrunning, hrsp0, hrsp, hrip.trans (hstored _ ?_), hcr3.trans (hstored _ ?_), ?_⟩
    · simp only [kstackAt] at hlow
      omega
    · simp only [cr3At, kstackAt]
      omega
    · intro i hi
      rw [hmem _ (inContext_kstack hi), hstored]
      simp only [kstackAt]
      omega

/-- A new task, when it is switched to for the first time. -/
theorem first_run {m₀ m₁ m₂ m₃ : Machine} {t : ℕ} {ctx : Context} {first : Bool} (h : Wf m₀)
    (hctx : ctx.Filled m₀.cpu.mem t) (hisr : ctx.kstack 491 = p.isr 32 + 29)
    (hnew : Step p m₀ (.create t) m₁) (hrun : Reach (StepBut p t) m₁ m₂)
    (hin : Step p m₂ (.schedule t first) m₃) :
    m₃.cpu.cr3 = ctx.cr3 ∧ Cpu.Reaches p m₃.cpu { m₃.cpu with
      reg := fun r => ctx.kstack (Cpu.slot r)
      rip := ctx.kstack 507
      cs := ctx.kstack 508
      rflags := ctx.kstack 509
      rsp := ctx.kstack 510
      ss := ctx.kstack 511 } := by
  have hk := hctx.kstack
  obtain ⟨-, -, hrsp, hrip, hcr3, hmem⟩ := ((Keeps.of_create h hnew).run hrun).schedule hin
  cases hnew with
  | create _ _ hsaved =>
    refine ⟨hcr3.trans hctx.cr3, Cpu.reaches_first (t := t) (fun i _ hi => ?_) ?_ ?_⟩
    · rw [hmem _ (inContext_kstack hi), ← hk i hi]
    · rw [hrip, ← hisr, ← hk 491 (by decide)]
      exact congrArg m₀.cpu.mem hsaved
    · rw [hrsp]
      exact congrArg (· + 8) hsaved

/-! ## Two tasks -/

/-- The first of two tasks runs, in the kernel. -/
def twoTasks : Machine where
  cpu :=
    { reg := fun _ => 0
      rip := 0
      rsp := kstackAt 0x10000 400
      rflags := 0
      cs := 0x08
      ss := 0x10
      cr3 := 0
      mem := fun a => if a = 0x20000 then kstackAt 0x20000 491 else 0 }
  rsp0 := kstackAt 0x10000 511
  running := 0x10000
  tasks := [0x10000, 0x20000]

theorem apart_two : Apart 0x10000 0x20000 := by
  simp only [Apart, InContext, cr3At, kstackAt]
  omega

theorem twoTasks_wf : Wf twoTasks where
  running := List.mem_cons_self
  rsp0 := rfl
  apart := by
    simp only [twoTasks, List.mem_cons, List.not_mem_nil, or_false]
    rintro t (rfl | rfl) t' (rfl | rfl) hne
    · exact absurd rfl hne
    · exact apart_two
    · exact apart_two.symm
    · exact absurd rfl hne
  onStack _ := by decide
  saved := by
    simp only [twoTasks, List.mem_cons, List.not_mem_nil, or_false]
    rintro t (rfl | rfl) hne
    · exact absurd rfl hne
    · decide

/-- It has let the other one run, which is interrupted by the timer. -/
def twoTicked : Machine :=
  { twoTasks.schedule 0x20000 false with
    cpu := (twoTasks.schedule 0x20000 false).cpu.interrupt (kstackAt 0x20000 511)
      (Cpu.spaced.isr 32) none }

/-- It is back when that one gives way. -/
theorem context_kept_two : ∃ m₁ m₂ m₃, Step Cpu.spaced twoTasks (.schedule 0x20000 false) m₁ ∧
    Step Cpu.spaced m₁ (.interrupt 32) m₂ ∧ Step Cpu.spaced m₂ (.schedule 0x10000 false) m₃ ∧
    m₃.cpu.rsp = kstackAt 0x10000 401 := by
  have hout : Step Cpu.spaced twoTasks (.schedule 0x20000 false) _ :=
    .schedule rfl (by decide) (by decide)
  have htick : Step Cpu.spaced (twoTasks.schedule 0x20000 false) (.interrupt 32) twoTicked :=
    .interrupt (by decide)
  have hin : Step Cpu.spaced twoTicked (.schedule 0x10000 false) _ :=
    .schedule (interrupt_user _ _ _ _) (by decide) (by decide)
  have hrun : Reach (StepBut Cpu.spaced 0x10000) (twoTasks.schedule 0x20000 false) twoTicked :=
    .step .start ⟨htick, ⟨fun _ => by decide, nofun⟩, nofun⟩
  obtain ⟨-, -, hrsp, -⟩ := context_kept twoTasks_wf hout (by decide) hrun hin
  exact ⟨_, _, _, hout, htick, hin, hrsp⟩

end Machine

end Bgox
