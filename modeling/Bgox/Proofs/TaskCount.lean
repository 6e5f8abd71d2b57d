import Bgox.Proofs.TaskRun

/-!
# `task_count`

`add_to_task_list` and `delete_curr_from_task_list` count the tasks they put in and take out.
`delete_from_task_list` takes a task out and does not count it, so every call of `sys_kill` that
takes out another task than the caller leaves `task_count` one too high (`step_surplus`).  Without
such calls it is the number of tasks in the list (`task_count_eq`).
-/

namespace Bgox

open Run (Reach)

namespace TaskQueue

variable {q q' : TaskQueue} {r : ℕ}

/-- By how much `task_count` is too high. -/
def surplus (q : TaskQueue) : ℤ := q.taskCount - q.nodes.length

/-- `sys_kill` takes out another task: there is one with this pid, and it is the caller's parent or
all such tasks are neither the caller nor named like the kernel. -/
def KillsOther (q : TaskQueue) (r : ℕ) : Op → Prop
  | .kill pid => (∃ n ∈ q.nodes, (q.process n).pid = pid) ∧
    ((q.process r).ppid = pid ∨
      ∀ n ∈ q.nodes, (q.process n).pid = pid → (q.process n).tname ≠ kernel ∧ n ≠ r)
  | _ => False

theorem surplus_add (t : Task) (hne : q.nodes ≠ []) : (q.add t).surplus = q.surplus := by
  simp only [surplus, add, if_neg hne, List.length_append, List.length_singleton]
  omega

theorem surplus_remove {n : ℕ} (hn : n ∈ q.nodes) : (q.remove n).surplus = q.surplus + 1 := by
  have hpos := List.length_pos_of_mem hn
  simp only [surplus, remove, List.length_erase_of_mem hn]
  omega

theorem surplus_leave (h : Wf q) (hl : q.leave = some q') : q'.surplus = q.surplus := by
  obtain ⟨r, hr, -, rfl⟩ := leave_cases hl
  have hremove := surplus_remove (h.mem_running hr)
  simp only [surplus, remove] at hremove ⊢
  omega

theorem surplus_schedule (h : Ready q) (hs : q.schedule = some q') : q'.surplus = q.surplus := by
  obtain ⟨hnodes, -, hcount, -⟩ := schedule_frame h hs
  rw [surplus, hnodes, hcount, surplus]

theorem Ready.nodes_ne_nil (h : Ready q) : q.nodes ≠ [] := by
  intro hnil
  rcases h.go with ⟨n, hn, -⟩ | ⟨-, n, hn, -⟩ <;> simp [hnil] at hn

open scoped Classical in
theorem surplus_edit (h : Wf q) {op : Op} {go : Bool}
    (he : q.edit r op = some (q', go)) :
    q'.surplus = q.surplus + if q.KillsOther r op then 1 else 0 := by
  have hne := TaskQueue.nodes_ne_nil h.running
  have hwaits : op.Waits → ¬ q.KillsOther r op := by
    rintro (rfl | ⟨pid, rfl⟩) <;> exact id
  cases edit_cases he with
  | yield | tick | sleep | sleepBg => simp [KillsOther, surplus, tick, doze, setProcess]
  | fork =>
    rw [fork, surplus_add (q := { q with PID := q.PID + 1 }) _ hne]
    simp [KillsOther, surplus]
  | leave hop hl => rcases hop with rfl | rfl <;> simp [KillsOther, surplus_leave h hl]
  | exec hl =>
    have hw := h.setPID (n := q.PID - 1 + 1) (by omega)
    rw [surplus_add _ (leave_ready hw hl).nodes_ne_nil, surplus_leave hw hl]
    simp [KillsOther, surplus]
  | await hop =>
    rw [if_neg (hwaits hop), add_zero]
    rfl
  | goOn hop => rw [if_neg (hwaits hop), add_zero]
  | killKernel hpp hn hpid hname =>
    rw [if_neg, add_zero]
    rintro ⟨-, hpar | hall⟩
    · exact hpp hpar
    · exact (hall _ hn hpid).1 hname
  | killSelf hpp hn hpid hl =>
    rw [if_neg, add_zero, surplus_leave h hl]
    rintro ⟨-, hpar | hall⟩
    · exact hpp hpar
    · exact (hall r hn hpid).2 rfl
  | kill hn hpid hother => rw [if_pos ⟨⟨_, hn, hpid⟩, hother⟩, surplus_remove hn]
  | killNone hnone =>
    rw [if_neg, add_zero]
    rintro ⟨⟨n, hn, hpid⟩, -⟩
    exact hnone n hn hpid
  | pageFault hl =>
    rw [surplus_leave h.loadSbush hl, loadSbush,
      surplus_add (q := { q with PID := q.PID + 1 }) _ hne]
    simp [KillsOther, surplus]

open scoped Classical in
/-- One step: another task that is killed is not counted. -/
theorem step_surplus (h : Wf q) (hr : q.running = some r) {op : Op} (hs : q.step op = some q') :
    q'.surplus = q.surplus + if q.KillsOther r op then 1 else 0 := by
  obtain ⟨q₁, go, he, hgo⟩ := step_edit hr hs
  rw [← surplus_edit h he]
  cases go
  · obtain rfl := hgo
    rfl
  · exact surplus_schedule (edit_wf h hr he) hgo

end TaskQueue

namespace Sched

variable {s s' : Sched} {q : TaskQueue}

/-- `task_count` is the length of the list. -/
def Counted (s : Sched) : Prop :=
  ∃ l, Linked.Chain s.next s.queueHead l ∧ s.taskCount = l.length

/-- The operation is a `sys_kill` of a task in the list that is the caller's parent, or that is
neither the caller nor named like the kernel. -/
def KillsOther (s : Sched) (op : Op) : Prop :=
  ∃ pid r l, op = .kill pid ∧ s.runningTask = some r ∧ Linked.Chain s.next s.queueHead l ∧
    (∃ n ∈ l, (s.process n).pid = pid) ∧
    ((s.process r).ppid = pid ∨
      ∀ n ∈ l, (s.process n).pid = pid → (s.process n).tname ≠ kernel ∧ n ≠ r)

def CountedStep (s : Sched) (op : Op) (s' : Sched) : Prop :=
  ¬ s.KillsOther op ∧ s.step op = .ok s'

theorem killsOther_iff (h : Refines s q) {r : ℕ} (hr : q.running = some r) (op : Op) :
    s.KillsOther op ↔ q.KillsOther r op := by
  unfold KillsOther
  constructor
  · rintro ⟨pid, r', l, rfl, hr', hl, hkill⟩
    obtain rfl : r = r' := by simpa [h.running, hr] using hr'
    rw [hl.unique h.chain, h.process] at hkill
    exact hkill
  · intro hkill
    cases op with
    | kill pid =>
      refine ⟨pid, r, q.nodes, rfl, h.running.trans hr, h.chain, ?_⟩
      rw [h.process]
      exact hkill
    | _ => exact hkill.elim

theorem counted_iff (h : Refines s q) : s.Counted ↔ q.surplus = 0 := by
  rw [TaskQueue.surplus, Int.sub_eq_zero, ← h.taskCount]
  constructor
  · rintro ⟨l, hl, hcount⟩
    rw [hcount, hl.unique h.chain]
  · intro hcount
    exact ⟨q.nodes, h.chain, hcount⟩

/-- In every state of a run in which `sys_kill` takes out no other task than the caller,
`task_count` is the length of the list; and a step from there keeps it so exactly if it is not such
a call. -/
theorem task_count_eq (h : Reach CountedStep boot s) :
    s.Counted ∧ ∀ op s', s.step op = .ok s' → (s'.Counted ↔ ¬ s.KillsOther op) := by
  obtain ⟨q, hq, hw, hzero⟩ := reach_refines (P := fun q => q.surplus = 0)
    (fun _ _ _ hs => hs.2) rfl (fun s q op s' q' hR hw hzero hs hq' => by
      obtain ⟨r, -, hr⟩ := hw.running
      rw [TaskQueue.step_surplus hw hr hq', hzero, if_neg, add_zero]
      rw [← killsOther_iff hR hr]
      exact hs.1) h
  refine ⟨(counted_iff hq).2 hzero, fun op s' hs => ?_⟩
  obtain ⟨r, -, hr⟩ := hw.running
  obtain ⟨q', hq', hR⟩ := (step_sim hq hw op).of_ok hs
  rw [counted_iff hR, TaskQueue.step_surplus hw hr hq', hzero, killsOther_iff hq hr]
  split_ifs with hkill <;> simp [hkill]

/-- The shell forks and kills a pid that nobody has. -/
theorem task_count_eq_fork : ∃ s, boot.run [.fork, .kill 7] = .ok s ∧ s.Counted := by
  let s₁ := (boot.step .fork).toOption.getD empty
  have hkill : ¬ s₁.KillsOther (.kill 7) := by
    rintro ⟨pid, r, l, hop, -, hl, ⟨n, hn, hpid⟩, -⟩
    obtain rfl : l = [0, 1, 2] := hl.unique ⟨rfl, rfl, rfl, rfl⟩
    obtain rfl : 7 = pid := by simpa using hop
    simp only [List.mem_cons, List.not_mem_nil, or_false] at hn
    rcases hn with rfl | rfl | rfl <;> cases hpid
  have hfork : ¬ boot.KillsOther .fork := by
    rintro ⟨pid, r, l, hop, -⟩
    cases hop
  have h := task_count_eq (Reach.step (Reach.step Reach.start ⟨hfork, rfl⟩) ⟨hkill, rfl⟩)
  exact ⟨_, rfl, h.1⟩

/-- The shell kills its child: two tasks are left, and three are counted. -/
theorem task_count_too_high : ∃ s, boot.run [.fork, .kill 2] = .ok s ∧ s.taskCount = 3 ∧
    Linked.Chain s.next s.queueHead [0, 1] :=
  ⟨_, rfl, rfl, rfl, rfl, rfl⟩

end Sched

end Bgox
