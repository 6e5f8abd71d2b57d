import Bgox.Proofs.Syscalls

/-!
# Runs of the scheduler

A run starts where `start` leaves off, with the boot task and the shell in the list and the shell
running.  `reach_refines` is the induction over runs: in every state reached the pointers hold a
well-formed list.

If the boot task only ever yields and is not killed, it stays the head of the list and is always
ready to run (`BootHead`), so every operation has a result and `schedule` never chooses a task
that sleeps or waits (`task_list_invariant`).
-/

namespace Bgox

open Linked (Fault)
open Run (Sim Reach)

/-! ## The induction over runs -/

/-- The list after boot. -/
def TaskQueue.boot : TaskQueue where
  nodes := [0, 1]
  process := Sched.boot.process
  running := some 1
  previous := some 0
  taskCount := 2
  PID := 2
  isBg := 0
  fresh := 2

theorem boot_refines : Refines Sched.boot TaskQueue.boot where
  chain := ⟨rfl, rfl, rfl⟩
  lt_fresh := by decide
  process := rfl
  running := rfl
  previous := rfl
  taskCount := rfl
  PID := rfl
  isBg := rfl
  fresh := rfl

theorem boot_wf : TaskQueue.boot.Wf where
  nodup := by decide
  lt_fresh := by decide
  pid_lt := by decide
  ppid_ne := by decide
  one_lt := by decide
  running := ⟨1, by decide, rfl⟩
  previous := ⟨0, by decide, rfl⟩
  apart := by decide

/-- A property of the list that holds after boot and that the steps of a run keep holds in every
state of the run, together with what every step keeps. -/
theorem reach_refines {R : Sched → Op → Sched → Prop} {P : TaskQueue → Prop}
    (hR : ∀ s op s', R s op s' → s.step op = .ok s') (h0 : P TaskQueue.boot)
    (hstep : ∀ s q op s' q', Refines s q → q.Wf → P q → R s op s' → q.step op = some q' → P q')
    {s : Sched} (h : Reach R Sched.boot s) : ∃ q, Refines s q ∧ q.Wf ∧ P q := by
  refine h.invariant (P := fun s => ∃ q, Refines s q ∧ q.Wf ∧ P q)
    ⟨_, boot_refines, boot_wf, h0⟩ ?_
  rintro s op s' ⟨q, hq, hw, hp⟩ hs
  obtain ⟨q', hq', hR'⟩ := (Sched.step_sim hq hw op).of_ok (hR s op s' hs)
  exact ⟨q', hR', TaskQueue.step_wf hw hq', hstep s q op s' q' hq hw hp hs hq'⟩

theorem reach_wf {s : Sched} (h : Reach Sched.Step Sched.boot s) : ∃ q, Refines s q ∧ q.Wf := by
  obtain ⟨q, hq, hw, -⟩ := reach_refines (P := fun _ => True) (fun _ _ _ hs => hs) trivial
    (fun _ _ _ _ _ _ _ _ _ _ => trivial) h
  exact ⟨q, hq, hw⟩

theorem reach_of_run : ∀ (ops : List Op) {s s' : Sched}, s.run ops = .ok s' →
    Reach Sched.Step s s'
  | [], s, s', h => by
    obtain rfl : s = s' := Except.ok.inj h
    exact Reach.start
  | op :: ops, s, s', h => by
    simp only [Sched.run, List.foldlM_cons] at h
    rcases hs : s.step op with e | s₁
    · rw [hs] at h
      cases h
    · rw [hs] at h
      exact (Reach.step Reach.start hs).trans (reach_of_run ops h)

/-! ## The boot task stays at the head -/

namespace TaskQueue

/-- The boot task heads the list and is ready to run. -/
structure BootHead (q : TaskQueue) : Prop where
  head : q.nodes.head? = some bootNode
  pid : (q.process bootNode).pid = 0
  name : (q.process bootNode).tname = kernel
  ready : q.blockedAt bootNode = false

/-- The running task neither sleeps nor waits. -/
def Awake (q : TaskQueue) : Prop := ∀ r, q.running = some r → q.blockedAt r = false

variable {q q' : TaskQueue} {r n : ℕ}

theorem BootHead.mem (h : BootHead q) : bootNode ∈ q.nodes := List.mem_of_mem_head? h.head

/-- Settling leaves a task alone that does not wait. -/
theorem settleAll_process_of_ready {ns : List ℕ} (h : q.blockedAt n = false) :
    (q.settleAll ns).process n = q.process n := by
  have hw := (Task.blocked_eq_false.1 h).2
  unfold settleAll settled
  simp [hw]

theorem settleAll_blockedAt_of_ready {ns : List ℕ} (h : q.blockedAt n = false) :
    (q.settleAll ns).blockedAt n = false := by
  rw [blockedAt, settleAll_process_of_ready h]
  exact h

theorem BootHead.settleAll (h : BootHead q) (ns : List ℕ) : BootHead (q.settleAll ns) where
  head := h.head
  pid := by rw [settleAll_process_of_ready h.ready]; exact h.pid
  name := by rw [settleAll_process_of_ready h.ready]; exact h.name
  ready := settleAll_blockedAt_of_ready h.ready

/-- Whatever `schedule` selects is ready: it is not blocked, or it is the boot task. -/
theorem schedule_bootHead (hq : Ready q) (h : BootHead q) (hs : q.schedule = some q') :
    BootHead q' ∧ Awake q' := by
  obtain ⟨hn, hp, -⟩ := schedule_frame hq hs
  have hb := h.settleAll q.scanned
  refine ⟨⟨hn ▸ h.head, hp ▸ hb.pid, hp ▸ hb.name, ?_⟩, fun m hm => ?_⟩
  · rw [blockedAt, hp]
    exact hb.ready
  · have hready : q.blockedAt m = false := by
      rcases schedule_selects hq hs hm with hm | hm
      · exact hm
      · rw [h.head] at hm
        cases hm
        exact h.ready
    rw [blockedAt, hp]
    exact settleAll_blockedAt_of_ready hready

theorem BootHead.remove (h : BootHead q) (hn : n ≠ bootNode) : BootHead (q.remove n) := by
  refine { h with head := ?_ }
  have hh := h.head
  show (q.nodes.erase n).head? = some bootNode
  cases hl : q.nodes with
  | nil => simp [hl] at hh
  | cons a l =>
    rw [hl] at hh
    simp only [List.head?_cons, Option.some.injEq] at hh
    subst hh
    simp [Ne.symm hn]

theorem BootHead.setProcess (h : BootHead q) (hn : n ≠ bootNode) (t : Task) :
    BootHead (q.setProcess n t) := by
  have hp : (q.setProcess n t).process bootNode = q.process bootNode := by
    simp [TaskQueue.setProcess, Ne.symm hn]
  exact ⟨h.head, by rw [hp]; exact h.pid, by rw [hp]; exact h.name,
    by rw [blockedAt, hp]; exact h.ready⟩

theorem BootHead.add (h : BootHead q) (hq : Sound q) (t : Task) : BootHead (q.add t) := by
  have hne : bootNode ≠ q.fresh := Nat.ne_of_lt (hq.lt_fresh _ h.mem)
  have hp : (q.add t).process bootNode = q.process bootNode := by
    simp [TaskQueue.add, hne]
  have hhead : (q.add t).nodes.head? = some bootNode := by
    have hh := h.head
    cases hl : q.nodes with
    | nil => simp [hl] at hh
    | cons a l => simpa [TaskQueue.add, hl] using hh
  exact ⟨hhead, by rw [hp]; exact h.pid, by rw [hp]; exact h.name,
    by rw [blockedAt, hp]; exact h.ready⟩

theorem BootHead.setPID (h : BootHead q) (k : ℕ) : BootHead { q with PID := k } := { h with }

theorem BootHead.setIsBg (h : BootHead q) (k : ℕ) : BootHead { q with isBg := k } := { h with }

theorem BootHead.loadSbush (h : BootHead q) (hq : Sound q) : BootHead q.loadSbush :=
  (h.setPID _).add (hq.setPID (Nat.le_succ _)) _

theorem BootHead.leave (h : BootHead q) (hr : q.running = some r) (hne : r ≠ bootNode)
    (hl : q.leave = some q') : BootHead q' := by
  obtain ⟨r', hr', -, rfl⟩ := leave_cases hl
  obtain rfl : r = r' := by simpa [hr] using hr'
  exact { h.remove hne with }

theorem tickTask_of_ready {t : Task} (h : t.blocked = false) : Sched.tickTask t = t := by
  simp [Sched.tickTask, (Task.blocked_eq_false.1 h).1]

theorem tick_process_of_ready (h : q.blockedAt n = false) :
    q.tick.process n = q.process n := by
  simp only [tick]
  split_ifs
  · exact tickTask_of_ready h
  · rfl

theorem BootHead.tick (h : BootHead q) : BootHead q.tick := by
  have hp := tick_process_of_ready h.ready
  exact ⟨h.head, by rw [hp]; exact h.pid, by rw [hp]; exact h.name,
    by rw [blockedAt, hp]; exact h.ready⟩

/-- What the boot task may do: yield, and be interrupted by the timer. -/
def Idles (op : Op) : Prop := op = .yield ∨ op = .tick

/-- `r` does not kill pid 0 as its parent.  This is the one way past the check of the name. -/
def Spares (q : TaskQueue) (r : ℕ) (op : Op) : Prop := op = .kill 0 → (q.process r).ppid ≠ 0

/-- A call that kills pid 0 finds the kernel's name. -/
theorem editKill_boot (h : BootHead q) (hp : (q.process r).ppid ≠ 0) : q.editKill r 0 = some q := by
  have hfind : (q.nodes.find? fun n =>
      (q.process n).pid == 0 && ((q.process n).tname == kernel || n == r)) = some bootNode := by
    have hh := h.head
    cases hl : q.nodes with
    | nil => simp [hl] at hh
    | cons a l =>
      rw [hl, List.head?_cons, Option.some.injEq] at hh
      subst hh
      exact List.find?_cons_of_pos (by simp [h.pid, h.name])
  rw [editKill, if_neg hp, hfind]
  exact if_pos h.name

/-- The edits of a task other than the boot task, and the idling of the boot task, leave it at the
head. -/
theorem edit_bootHead (hq : Wf q) (h : BootHead q) (hr : q.running = some r) {op : Op}
    (hidle : r = bootNode → Idles op) (hkill : q.Spares r op) {go : Bool}
    (he : q.edit r op = some (q', go)) : BootHead q' := by
  by_cases hop : Idles op
  · rcases hop with rfl | rfl
    · obtain ⟨rfl, rfl⟩ := Prod.mk.inj (Option.some.inj he)
      exact h
    · obtain ⟨rfl, rfl⟩ := Prod.mk.inj (Option.some.inj he)
      exact h.tick
  have hne : r ≠ bootNode := fun hb => hop (hidle hb)
  cases edit_cases he with
  | yield => exact h
  | fork => exact (h.setPID _).add (hq.toSound.setPID (Nat.le_succ _)) _
  | leave _ hl => exact h.leave hr hne hl
  | exec hl =>
    have hready := leave_ready (hq.setPID (n := q.PID - 1 + 1) (by omega)) hl
    exact ((h.setPID (q.PID - 1 + 1)).leave hr hne hl).add hready.toSound _
  | sleep => exact (h.setIsBg 0).setProcess hne _
  | sleepBg => exact ((h.setProcess hne _).setIsBg 1).setProcess hne _
  | await => exact h.setProcess hne _
  | goOn | killKernel | killNone => exact h
  | killSelf _ _ _ hl => exact h.leave hr hne hl
  | kill hn hpid hother =>
    -- the boot task has pid 0, and is protected by its name
    refine h.remove ?_
    rintro rfl
    rw [h.pid] at hpid
    subst hpid
    rcases hother with hpp | hall
    · exact hkill rfl hpp
    · exact (hall bootNode hn h.pid).1 h.name
  | tick => exact h.tick
  | pageFault hl => exact (h.loadSbush hq.toSound).leave (loadSbush_running hq hr) hne hl

/-- An edit without a call of `schedule` leaves the running task running and ready. -/
theorem edit_awake (hq : Wf q) (ha : Awake q) (hr : q.running = some r) {op : Op}
    (he : q.edit r op = some (q', false)) : Awake q' := by
  have hready := ha r hr
  have hne : r ≠ q.fresh := Nat.ne_of_lt (hq.lt_fresh r (hq.mem_running hr))
  cases edit_cases he with
  | fork =>
    intro m hm
    have : m = r := by simpa [fork, add, nodes_ne_nil hq.running, hr] using hm.symm
    subst this
    simpa [blockedAt, fork, add, hne] using hready
  | goOn => exact ha
  | tick =>
    intro m hm
    have : m = r := by simpa [tick, hr] using hm.symm
    subst this
    rw [blockedAt, tick_process_of_ready hready]
    exact hready

theorem step_bootHead (hq : Wf q) (h : BootHead q) (ha : Awake q) {op : Op}
    (hidle : q.running = some bootNode → Idles op)
    (hkill : ∀ r, q.running = some r → q.Spares r op) (hs : q.step op = some q') :
    BootHead q' ∧ Awake q' := by
  obtain ⟨r, q₁, go, hr, he, hgo⟩ := step_cases hs
  have hb := edit_bootHead hq h hr (fun hb => hidle (by rw [hr, hb])) (hkill r hr) he
  have hw := edit_wf hq hr he
  cases go
  · obtain rfl := hgo
    exact ⟨hb, edit_awake hq ha hr he⟩
  · exact schedule_bootHead hw hb hgo

/-- Nothing such a task does is undefined. -/
theorem exists_edit (hq : Wf q) (h : BootHead q) (hr : q.running = some r) {op : Op}
    (hidle : r = bootNode → Idles op) (hkill : q.Spares r op) : ∃ e, q.edit r op = some e := by
  by_cases hop : Idles op
  · rcases hop with rfl | rfl <;> exact ⟨_, rfl⟩
  have hne : r ≠ bootNode := fun hb => hop (hidle hb)
  have hleave : ∀ {q₁ : TaskQueue}, Wf q₁ → q₁.running = some r → BootHead q₁ →
      ∃ q₂, q₁.leave = some q₂ := by
    intro q₁ hw hr₁ hb
    refine leave_isSome hw hr₁ ?_
    rw [hb.head]
    simpa using Ne.symm hne
  cases op with
  | yield => exact ⟨_, rfl⟩
  | fork => exact ⟨_, rfl⟩
  | exec file =>
    cases file with
    | none =>
      obtain ⟨q₂, hl⟩ := hleave hq hr h
      exact ⟨_, by simp only [edit, hl, Option.map_some]; rfl⟩
    | some name =>
      obtain ⟨q₂, hl⟩ := hleave (hq.setPID (n := q.PID - 1 + 1) (by omega)) hr { h with }
      exact ⟨_, by simp only [edit, hl, Option.map_some]; rfl⟩
  | exit =>
    obtain ⟨q₂, hl⟩ := hleave hq hr h
    exact ⟨_, by simp only [edit, hl, Option.map_some]; rfl⟩
  | sleep time bg => cases bg <;> exact ⟨_, rfl⟩
  | wait => exact ⟨_, rfl⟩
  | waitpid pid => exact ⟨_, rfl⟩
  | kill pid =>
    by_cases hpid : pid = 0
    · subst hpid
      exact ⟨_, by simp only [edit, editKill_boot h (hkill rfl), Option.map_some]; rfl⟩
    have hdel : ∃ q₂, q.delete pid = some q₂ := by
      unfold delete
      split
      · exact ⟨_, rfl⟩
      · rename_i n hf
        rw [if_neg]
        · exact ⟨_, rfl⟩
        · rintro ⟨-, hn⟩
          rw [h.head] at hn
          cases hn
          exact hpid ((lookup_some hf).2.symm.trans h.pid)
    have hedit : ∃ q₂, q.editKill r pid = some q₂ := by
      unfold editKill
      split_ifs
      · exact hdel
      · split
        · split_ifs
          · exact ⟨_, rfl⟩
          · exact hleave hq hr h
        · exact hdel
    obtain ⟨q₂, hk⟩ := hedit
    exact ⟨_, by simp only [edit, hk, Option.map_some]; rfl⟩
  | tick => exact ⟨_, rfl⟩
  | pageFault =>
    obtain ⟨q₂, hl⟩ :=
      hleave hq.loadSbush (loadSbush_running hq hr) (h.loadSbush hq.toSound)
    exact ⟨_, by simp only [edit, hl, Option.map_some]; rfl⟩

theorem exists_step (hq : Wf q) (h : BootHead q) {op : Op}
    (hidle : q.running = some bootNode → Idles op)
    (hkill : ∀ r, q.running = some r → q.Spares r op) : ∃ q', q.step op = some q' := by
  obtain ⟨r, -, hr⟩ := hq.running
  obtain ⟨⟨q₁, go⟩, he⟩ := exists_edit hq h hr (fun hb => hidle (by rw [hr, hb])) (hkill r hr)
  have hw := edit_wf hq hr he
  cases go
  · exact ⟨q₁, step_of_edit_false hr he⟩
  · obtain ⟨q', hs⟩ := exists_schedule hw
    exact ⟨q', by rw [step_of_edit hr he, hs]⟩

end TaskQueue

/-! ## The task list over whole runs -/

namespace Sched

/-- The boot task only yields, and pid 0 is not killed. -/
def Allowed (s : Sched) (op : Op) : Prop :=
  (s.runningTask = some bootNode → op = .yield ∨ op = .tick) ∧ op ≠ .kill 0

/-- A step of a run in which nothing else happens to the boot task. -/
def AllowedStep (s : Sched) (op : Op) (s' : Sched) : Prop := s.Allowed op ∧ s.step op = .ok s'

/-- In every state reached, the chain from `queue_head` ends in `NULL`, meets no node twice and
starts with the boot task; the running task and `previous` are in it, and the running task neither
sleeps nor waits; and no operation follows `NULL` or walks for ever. -/
theorem task_list_invariant {s : Sched} (h : Reach AllowedStep boot s) :
    (∃ l, Linked.Chain s.next s.queueHead l ∧ l.Nodup ∧ l.head? = some bootNode ∧
      (s.process bootNode).pid = 0 ∧ (s.process bootNode).tname = kernel ∧
      (∃ r ∈ l, s.runningTask = some r ∧
        (s.process r).isSleeping = 0 ∧ (s.process r).isWaiting = 0) ∧
      ∃ p ∈ l, s.previous = some p) ∧
    ∀ op, s.Allowed op → ∃ s', s.step op = .ok s' := by
  obtain ⟨q, hq, hw, hb, ha⟩ := reach_refines (P := fun q => q.BootHead ∧ q.Awake)
    (fun _ _ _ hs => hs.2) ⟨⟨rfl, rfl, rfl, rfl⟩, fun r hr => by cases hr; rfl⟩
    (fun s q op s' q' hR hw hp hs hq' =>
      TaskQueue.step_bootHead hw hp.1 hp.2 (fun hr => hs.1.1 (by rw [hR.running, hr]))
        (fun _ _ hop => absurd hop hs.1.2) hq')
    h
  refine ⟨⟨q.nodes, hq.chain, hq.nodup, hb.head, ?_, ?_, ?_, ?_⟩, fun op hop => ?_⟩
  · rw [hq.process]
    exact hb.pid
  · rw [hq.process]
    exact hb.name
  · obtain ⟨r, hr, hre⟩ := hw.running
    rw [hq.process]
    exact ⟨r, hr, hq.running.trans hre, Task.blocked_eq_false.1 (ha r hre)⟩
  · obtain ⟨p, hp, hpe⟩ := hw.previous
    exact ⟨p, hp, hq.previous.trans hpe⟩
  · obtain ⟨q', hs⟩ := TaskQueue.exists_step hw hb
      (fun hr => hop.1 (by rw [hq.running, hr])) (fun _ _ hk => absurd hk hop.2)
    obtain ⟨s', hs', -⟩ := (step_sim hq hw op).of_some hs
    exact ⟨s', hs'⟩

theorem task_list_invariant_fork :
    ∃ s, boot.step .fork = .ok s ∧ (∃ l, Linked.Chain s.next s.queueHead l ∧ l.Nodup) ∧
      ∃ s', s.step .exit = .ok s' := by
  refine ⟨(boot.step .fork).toOption.getD empty, rfl, ?_⟩
  have hallowed : ∀ {s : Sched} (op : Op), s.runningTask = some 1 → op ≠ .kill 0 → s.Allowed op :=
    fun op hr hop => ⟨fun hb => by simp [hr, bootNode] at hb, hop⟩
  obtain ⟨⟨l, hc, hn, -⟩, hstep⟩ := task_list_invariant
    (Reach.step Reach.start ⟨hallowed .fork rfl (by decide), rfl⟩)
  exact ⟨⟨l, hc, hn⟩, hstep .exit (hallowed .exit rfl (by decide))⟩

end Sched

end Bgox
