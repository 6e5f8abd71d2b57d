import Bgox.Proofs.TaskInv

/-!
# Every operation refines its list version

`step_sim` puts the pieces of `Refine.lean` together along the code of each system call and
interrupt handler.  With `TaskQueue.step_wf` it carries the invariant of the list over to every
run of the pointer program (`reach_refines`).
-/

namespace Bgox

open Linked (Fault)
open Run (Sim Reach)

namespace TaskQueue

variable {q : TaskQueue} {r : ℕ}

theorem step_eq (hr : q.running = some r) (op : Op) :
    q.step op = (q.edit r op).bind fun e => if e.2 then e.1.schedule else some e.1 := by
  simp [step, hr]

theorem step_of_edit {op : Op} {q₁ : TaskQueue} (hr : q.running = some r)
    (he : q.edit r op = some (q₁, true)) : q.step op = q₁.schedule := by
  rw [step_eq hr, he]
  rfl

theorem step_of_edit_false {op : Op} {q₁ : TaskQueue} (hr : q.running = some r)
    (he : q.edit r op = some (q₁, false)) : q.step op = some q₁ := by
  rw [step_eq hr, he]
  rfl

/-- The operations that edit the list and then call `schedule`. -/
theorem step_of_edit_map {op : Op} {e : Option TaskQueue} {f : TaskQueue → TaskQueue}
    (hr : q.running = some r) (he : q.edit r op = e.map fun q' => (f q', true)) :
    q.step op = e >>= fun q' => (f q').schedule := by
  rw [step_eq hr, he]
  cases e <;> rfl

end TaskQueue

namespace Sched

variable {s : Sched} {q : TaskQueue} {r : ℕ}

theorem getRunningTask_eq (h : Refines s q) (hr : q.running = some r) :
    s.getRunningTask = .ok r := by
  rw [getRunningTask, h.running, hr]
  rfl

theorem sysFork_sim (h : Refines s q) (hr : q.running = some r) :
    Sim Refines s.sysFork (some (q.fork r)) := by
  have he := addToTaskList_sim (h.setPID (s.PID + 1))
    ⟨s.PID, (s.process r).pid, (s.process r).tname, 0, 0, 0, 0⟩
  rw [h.PID, h.process] at he
  simp only [sysFork, getRunningTask_eq h hr, bind, Except.bind]
  rw [h.PID, h.process]
  exact he

theorem loadSbush_sim (h : Refines s q) (hr : q.running = some r) :
    Sim Refines s.loadSbush (some q.loadSbush) := by
  have he := addToTaskList_sim (h.setPID (s.PID + 1)) ⟨1, 0, oxterm, 0, 0, 0, 0⟩
  rw [h.PID] at he
  simp only [loadSbush, elfRunBin, getRunningTask_eq h hr, bind, Except.bind, pure, Except.pure]
  rw [h.PID]
  exact he

/-- A task leaves, and another is chosen. -/
theorem sysExit_sim (h : Refines s q) (hw : q.Wf) :
    Sim Refines s.sysExit (q.leave >>= TaskQueue.schedule) := by
  refine (deleteCurrFromTaskList_sim h).bind fun s' q' hq hR => ?_
  exact schedule_sim hR (TaskQueue.leave_ready hw hq).canGo

theorem sysExec_sim (h : Refines s q) (hw : q.Wf) (hr : q.running = some r) (name : List UInt8) :
    Sim Refines (s.sysExec (some name))
      (TaskQueue.leave { q with PID := q.PID - 1 + 1 } >>= fun q' =>
        (q'.add ⟨(q.process r).pid, (q.process r).ppid, name, 0, 0, 0, 0⟩).schedule) := by
  have h1 : Refines { s with process := q.process, PID := q.PID - 1 + 1 }
      { q with PID := q.PID - 1 + 1 } := { h with process := rfl, PID := rfl }
  simp only [sysExec, elfRunBin, getRunningTask_eq h hr,
    getRunningTask_eq (h.setPID (s.PID - 1)) hr, bind, Except.bind, pure, Except.pure]
  rw [h.PID, h.process]
  refine (deleteCurrFromTaskList_sim h1).bind fun s' q' hq hR => ?_
  have hadd := addToTaskList_sim hR ⟨(q.process r).pid, (q.process r).ppid, name, 0, 0, 0, 0⟩
  have hedit : q.edit r (.exec (some name))
      = some (q'.add ⟨(q.process r).pid, (q.process r).ppid, name, 0, 0, 0, 0⟩, true) := by
    simp only [TaskQueue.edit, hq, Option.map_some]
  have hready : TaskQueue.Ready
      (q'.add ⟨(q.process r).pid, (q.process r).ppid, name, 0, 0, 0, 0⟩) := by
    simpa using TaskQueue.edit_wf hw hr hedit
  exact hadd.bind (g := TaskQueue.schedule) fun s'' q'' hq'' hR' => by
    obtain rfl := Option.some.inj hq''
    exact schedule_sim hR' hready.canGo

/-- The three exits of `sys_kill`. -/
theorem sysKill_sim (h : Refines s q) (hw : q.Wf) (hr : q.running = some r) (pid : ℕ) :
    Sim Refines (s.sysKill pid) (q.editKill r pid >>= TaskQueue.schedule) := by
  have hgo : ∀ (s' : Sched) (q' : TaskQueue), q.editKill r pid = some q' → Refines s' q' →
      Sim Refines s'.schedule q'.schedule := fun s' q' hq hR =>
    schedule_sim hR (TaskQueue.editKill_ready hw hr hq).canGo
  simp only [sysKill, getRunningTask_eq h hr, bind, Except.bind]
  by_cases hpp : (s.process r).ppid = pid
  · have hedit : q.editKill r pid = q.delete pid := by
      rw [h.process] at hpp
      simp [TaskQueue.editKill, hpp]
    rw [hedit] at hgo ⊢
    simp only [hpp, if_true]
    exact (deleteFromTaskList_sim h pid).bind hgo
  · simp only [hpp, if_false]
    rw [h.process] at hpp
    rw [h.find]
    simp only [h.process]
    rcases hf : q.nodes.find? (fun n =>
        (q.process n).pid == pid && ((q.process n).tname == kernel || n == r)) with _ | n
    · have hedit : q.editKill r pid = q.delete pid := by simp [TaskQueue.editKill, hpp, hf]
      rw [hedit] at hgo ⊢
      exact (deleteFromTaskList_sim h pid).bind hgo
    · by_cases hk : (q.process n).tname = kernel
      · have hedit : q.editKill r pid = some q := by simp [TaskQueue.editKill, hpp, hf, hk]
        simp only [hk, if_true]
        rw [hedit] at hgo ⊢
        exact hgo s q rfl h
      · have hedit : q.editKill r pid = q.leave := by simp [TaskQueue.editKill, hpp, hf, hk]
        simp only [hk, if_false]
        rw [hedit]
        exact sysExit_sim h hw

theorem waitChild_eq (h : Refines s q) (pid : ℕ) :
    s.waitChild r pid = .ok (q.waitChild r pid) := by
  unfold waitChild TaskQueue.waitChild
  split_ifs
  · rw [h.find, h.process]
  · rw [h.findPid]

theorem sysWaitpid_some (h : Refines s q) (hr : q.running = some r) {pid bg c : ℕ} (hbg : bg ≠ 1)
    (hc : q.waitChild r pid = some c) :
    s.sysWaitpid pid bg
      = (s.setProcess r { q.process r with isWaiting := (q.process c).pid }).schedule >>= fun s' =>
        pure (s', (q.process c).pid) := by
  simp only [sysWaitpid, hbg, if_false, getRunningTask_eq h hr]
  simp only [bind, Except.bind, waitChild_eq h, hc, h.process]

theorem sysWaitpid_none (h : Refines s q) (hr : q.running = some r) {pid bg : ℕ} (hbg : bg ≠ 1)
    (hc : q.waitChild r pid = none) : s.sysWaitpid pid bg = pure (s, 0) := by
  simp only [sysWaitpid, hbg, if_false, getRunningTask_eq h hr]
  simp only [bind, Except.bind, waitChild_eq h, hc]

/-- `sys_waitpid` without the background flag. -/
theorem sysWaitpid_sim (h : Refines s q) (hw : q.Wf) (hr : q.running = some r) (pid : ℕ)
    {bg : ℕ} (hbg : bg ≠ 1) :
    Sim Refines (Prod.fst <$> s.sysWaitpid pid bg)
      (if (q.editWait r pid).2 then (q.editWait r pid).1.schedule
        else some (q.editWait r pid).1) := by
  have hmap : ∀ (x : Except Fault Sched) (c : ℕ),
      (Prod.fst <$> (x >>= fun s' => pure (s', c)) : Except Fault Sched) = x := by
    intro x c
    cases x <;> rfl
  unfold TaskQueue.editWait
  rcases hc : q.waitChild r pid with _ | c
  · rw [sysWaitpid_none h hr hbg hc]
    exact h
  · rw [sysWaitpid_some h hr hbg hc, hmap]
    exact schedule_sim (h.setProcess r _) (hw.await r c).ready.canGo

theorem sysSleep_sim (h : Refines s q) (hw : q.Wf) (hr : q.running = some r) (time : ℤ) :
    Sim Refines (s.sysSleep time) (q.doze r time).schedule := by
  simp only [sysSleep, getRunningTask_eq h hr, bind, Except.bind]
  rw [h.process]
  exact schedule_sim (h.setProcess r _) (hw.doze r time).ready.canGo

/-- The timer's loop ticks every task of the chain it walks. -/
theorem decSleepLoop_eq : ∀ {fuel : ℕ} {l : List ℕ} {s : Sched} {p : Option ℕ},
    Linked.Chain s.next p l → l.length < fuel →
    decSleepLoop fuel s p
      = .ok { s with
          process := fun n => if n ∈ l then tickTask (s.process n) else s.process n }
  | 0, _, _, _, _, hf => by omega
  | fuel + 1, [], s, p, h, _ => by
    cases h
    simp [decSleepLoop]
  | fuel + 1, a :: l, s, p, h, hf => by
    have ha : a ∉ l := (List.nodup_cons.1 h.nodup).1
    obtain ⟨rfl, h2⟩ := h
    rw [decSleepLoop, decSleepLoop_eq (l := l) (s := s.setProcess a (tickTask (s.process a))) h2
      (by simpa using hf)]
    have hp : (fun n => if n ∈ l then tickTask ((s.setProcess a (tickTask (s.process a))).process n)
          else (s.setProcess a (tickTask (s.process a))).process n)
        = fun n => if n ∈ a :: l then tickTask (s.process n) else s.process n := by
      funext n
      by_cases hn : n = a
      · subst hn
        simp [ha, setProcess]
      · simp [hn, setProcess]
    rw [hp]
    rfl

theorem decSleepCount_sim (h : Refines s q) : Sim Refines s.decSleepCount (some q.tick) := by
  rw [decSleepCount, decSleepLoop_eq h.chain h.length_lt_fuel]
  exact { h with process := by simp only [TaskQueue.tick, h.process] }

theorem pageFaultHandler_sim (h : Refines s q) (hw : q.Wf) (hr : q.running = some r) :
    Sim Refines s.pageFaultHandler (q.loadSbush.leave >>= TaskQueue.schedule) :=
  (loadSbush_sim h hr).bind (g := fun q' => q'.leave >>= TaskQueue.schedule)
    fun s' q' hq hR => by
      obtain rfl := Option.some.inj hq
      exact sysExit_sim hR hw.loadSbush

/-- One operation of the pointer program is the operation on the list, faults included. -/
theorem step_sim (h : Refines s q) (hw : q.Wf) (op : Op) :
    Sim Refines (s.step op) (q.step op) := by
  obtain ⟨r, -, hr⟩ := hw.running
  cases op with
  | yield =>
    rw [TaskQueue.step_of_edit hr rfl]
    exact schedule_sim h hw.ready.canGo
  | fork =>
    rw [TaskQueue.step_of_edit_false hr rfl]
    exact sysFork_sim h hr
  | exec file =>
    cases file with
    | none =>
      rw [TaskQueue.step_of_edit_map (f := fun q' => q') hr rfl]
      exact sysExit_sim h hw
    | some name =>
      rw [TaskQueue.step_of_edit_map hr rfl]
      exact sysExec_sim h hw hr name
  | exit =>
    rw [TaskQueue.step_of_edit_map (f := fun q' => q') hr rfl]
    exact sysExit_sim h hw
  | sleep time bg =>
    cases bg with
    | false =>
      rw [TaskQueue.step_of_edit hr rfl]
      exact sysSleep_sim (h.setIsBg 0) (hw.setIsBg 0) hr time
    | true =>
      rw [TaskQueue.step_of_edit hr rfl]
      have hset := (h.setProcess r { q.process r with isBg := 1 }).setIsBg 1
      have hwf : TaskQueue.Wf
          { q.setProcess r { q.process r with isBg := 1 } with isBg := 1 } :=
        (hw.setProcess (n := r) (t := { q.process r with isBg := 1 }) rfl rfl).setIsBg 1
      show Sim Refines (s.sleepHandler time true) _
      simp only [sleepHandler, getRunningTask_eq h hr, bind, Except.bind, if_true]
      rw [h.process]
      exact sysSleep_sim hset hwf hr time
  | wait =>
    rw [TaskQueue.step_eq hr]
    exact sysWaitpid_sim h hw hr 0 (by decide)
  | waitpid pid =>
    rw [TaskQueue.step_eq hr]
    show Sim Refines (Prod.fst <$> s.sysWaitpid pid s.isBg) _
    rw [h.isBg]
    by_cases hbg : q.isBg = 1
    · simp only [TaskQueue.edit, hbg, if_true]
      exact h
    · simp only [TaskQueue.edit, hbg, if_false]
      exact sysWaitpid_sim h hw hr pid hbg
  | kill pid =>
    rw [TaskQueue.step_of_edit_map (f := fun q' => q') hr rfl]
    exact sysKill_sim h hw hr pid
  | tick =>
    rw [TaskQueue.step_of_edit_false hr rfl]
    exact decSleepCount_sim h
  | pageFault =>
    rw [TaskQueue.step_of_edit_map (f := fun q' => q') hr rfl]
    exact pageFaultHandler_sim h hw hr

end Sched

end Bgox
