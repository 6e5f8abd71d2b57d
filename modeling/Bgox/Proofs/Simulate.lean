import Bgox.Proofs.TaskRun

/-!
# Whole runs of the scheduler

`step_sim` says that the pointer program faults where the list has no next state.  Here is which
fault that is: the walk for the predecessor of the head runs off the end of the list, so the program
follows `NULL` (`step_null`); no walk goes round for ever.  So every run of the pointer program is
the run of the list (`run_simulates`).
-/

namespace Bgox

namespace TaskQueue

/-- The operations one after the other. -/
def run (q : TaskQueue) (ops : List Op) : Option TaskQueue := ops.foldlM step q

variable {q : TaskQueue} {r : ℕ}

theorem leave_eq_none (hr : q.running = some r) (h : q.leave = none) : r ∉ q.nodes.tail := by
  intro hmem
  simp [leave, hr, hmem] at h

/-- Only an edit of the list can be undefined. -/
theorem edit_of_step (h : Wf q) (hr : q.running = some r) {op : Op} (hs : q.step op = none) :
    q.edit r op = none := by
  rcases he : q.edit r op with _ | ⟨q₁, go⟩
  · rfl
  · have hwf := edit_wf h hr he
    rw [step, hr, Option.bind_some, he, Option.bind_some] at hs
    cases go
    · cases hs
    · obtain ⟨q', hs'⟩ := exists_schedule hwf
      cases hs.symm.trans hs'

end TaskQueue

namespace Sched

variable {s : Sched} {q : TaskQueue} {r : ℕ}

theorem deleteCurrFromTaskList_null (h : Refines s q) (hr : q.running = some r)
    (hl : q.leave = none) : s.deleteCurrFromTaskList = .error .null := by
  unfold deleteCurrFromTaskList
  rw [h.running, hr, Linked.pred_null h.chain (TaskQueue.leave_eq_none hr hl) h.length_lt_fuel]
  rfl

theorem sysExit_null (h : Refines s q) (hr : q.running = some r) (hl : q.leave = none) :
    s.sysExit = .error .null := by
  rw [sysExit, deleteCurrFromTaskList_null h hr hl]
  rfl

theorem deleteFromTaskList_null (h : Refines s q) {pid : ℕ} (hd : q.delete pid = none) :
    s.deleteFromTaskList pid = .error .null := by
  unfold TaskQueue.delete at hd
  unfold deleteFromTaskList
  rw [h.findPid]
  rcases hf : q.lookup pid with _ | n
  · rw [hf] at hd
    cases hd
  · rw [hf] at hd
    simp only [ite_eq_left_iff, reduceCtorEq, imp_false, not_not] at hd
    have hpred := Linked.pred_null h.chain (head_notMem_tail h.nodup hd.2) h.length_lt_fuel
    simp only [bind, Except.bind, h.previous, ← hd.1, if_true, hpred]

theorem sysKill_null (h : Refines s q) (hr : q.running = some r) {pid : ℕ}
    (hk : q.editKill r pid = none) : s.sysKill pid = .error .null := by
  simp only [sysKill, getRunningTask_eq h hr, bind, Except.bind]
  unfold TaskQueue.editKill at hk
  rw [h.process]
  split_ifs at hk ⊢ with hpp
  · rw [deleteFromTaskList_null h hk]
  · rw [h.find]
    split at hk
    · rename_i n hf
      split_ifs at hk with hname
      simp only [hf, if_neg hname]
      rw [deleteCurrFromTaskList_null h hr hk]
    · rename_i hf
      simp only [hf]
      rw [deleteFromTaskList_null h hk]

theorem sysExec_null (h : Refines s q) (hr : q.running = some r) {name : List UInt8}
    (hl : TaskQueue.leave { q with PID := q.PID - 1 + 1 } = none) :
    s.sysExec (some name) = .error .null := by
  have h₁ : Refines { s with process := q.process, PID := q.PID - 1 + 1 }
      { q with PID := q.PID - 1 + 1 } := { h with process := rfl, PID := rfl }
  simp only [sysExec, elfRunBin, getRunningTask_eq h hr,
    getRunningTask_eq (h.setPID (s.PID - 1)) hr, bind, Except.bind, pure, Except.pure]
  rw [h.PID, h.process, deleteCurrFromTaskList_null h₁ hr hl]

theorem pageFaultHandler_null (h : Refines s q) (hw : q.Wf) (hr : q.running = some r)
    (hl : q.loadSbush.leave = none) : s.pageFaultHandler = .error .null := by
  obtain ⟨s', hs', hR⟩ := (loadSbush_sim h hr).of_some rfl
  have hexit := sysExit_null hR (TaskQueue.loadSbush_running hw hr) hl
  rw [pageFaultHandler, hs']
  exact hexit

/-- Where the list has no next state the program follows `NULL`. -/
theorem step_null (h : Refines s q) (hw : q.Wf) {op : Op} (hs : q.step op = none) :
    s.step op = .error .null := by
  obtain ⟨r, -, hr⟩ := hw.running
  have he := TaskQueue.edit_of_step hw hr hs
  cases op with
  | yield | fork | wait | waitpid | tick => cases he
  | sleep time bg => cases bg <;> cases he
  | exit => exact sysExit_null h hr (Option.map_eq_none_iff.1 he)
  | exec file =>
    cases file with
    | none => exact sysExit_null h hr (Option.map_eq_none_iff.1 he)
    | some name => exact sysExec_null h hr (Option.map_eq_none_iff.1 he)
  | kill pid => exact sysKill_null h hr (Option.map_eq_none_iff.1 he)
  | pageFault => exact pageFaultHandler_null h hw hr (Option.map_eq_none_iff.1 he)

theorem run_sim : ∀ (ops : List Op) {s : Sched} {q : TaskQueue}, Refines s q → q.Wf →
    (∃ s' q', s.run ops = .ok s' ∧ q.run ops = some q' ∧ Refines s' q') ∨
      (s.run ops = .error .null ∧ q.run ops = none)
  | [], s, q, h, _ => Or.inl ⟨s, q, rfl, rfl, h⟩
  | op :: ops, s, q, h, hw => by
    rcases hs : q.step op with _ | q₁
    · refine Or.inr ⟨?_, ?_⟩
      · simp only [run, List.foldlM_cons, step_null h hw hs]
        rfl
      · simp only [TaskQueue.run, List.foldlM_cons, hs]
        rfl
    · obtain ⟨s₁, hs₁, hR⟩ := (step_sim h hw op).of_some hs
      simp only [run, TaskQueue.run, List.foldlM_cons, hs, hs₁]
      exact run_sim ops hR (TaskQueue.step_wf hw hs)

/-- Whatever the tasks and the timer do from boot on, the pointers hold the list that the same
operations lead to, or the program has followed `NULL` and the list is undefined there. -/
theorem run_simulates (ops : List Op) :
    (∃ s q, boot.run ops = .ok s ∧ TaskQueue.boot.run ops = some q ∧ Refines s q) ∨
      (boot.run ops = .error .null ∧ TaskQueue.boot.run ops = none) :=
  run_sim ops boot_refines boot_wf

end Sched

end Bgox
