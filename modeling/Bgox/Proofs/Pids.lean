import Bgox.Proofs.TaskRun

/-!
# Process ids

`fork` draws a pid from the counter, and `exec` gives the new task the pid of the one it replaces;
both keep the pids in the list distinct.  `load_sbush` always writes pid 1.  That is right at boot,
but the page fault handler runs it too, while the shell is still in the list
(`pids_not_distinct`).  A page fault keeps the pids distinct exactly if nobody else has pid 1
(`pids_distinct`).
-/

namespace Bgox

open Run (Reach)

namespace TaskQueue

variable {q q' : TaskQueue} {r n : ℕ}

/-- No two tasks in the list have the same pid. -/
def Distinct (q : TaskQueue) : Prop :=
  ∀ m ∈ q.nodes, ∀ n ∈ q.nodes, (q.process m).pid = (q.process n).pid → m = n

/-- No task other than the running one has pid 1. -/
def SoleShell (q : TaskQueue) : Prop := ∀ n ∈ q.nodes, (q.process n).pid = 1 → q.running = some n

theorem schedule_pid (h : Ready q) (hs : q.schedule = some q') (n : ℕ) :
    (q'.process n).pid = (q.process n).pid := by
  obtain ⟨-, hp, -⟩ := schedule_frame h hs
  rw [hp, settleAll_pid]

theorem Distinct.schedule (hd : Distinct q) (h : Ready q) (hs : q.schedule = some q') :
    Distinct q' := by
  obtain ⟨hn, -⟩ := schedule_frame h hs
  intro m hm n hn' hp
  rw [hn] at hm hn'
  rw [schedule_pid h hs, schedule_pid h hs] at hp
  exact hd m hm n hn' hp

/-- The new task has a pid of its own among those that stay. -/
theorem born_pid_ne (h : Wf q) (hd : Distinct q) (hr : q.running = some r) {op : Op}
    (hop : op = .pageFault → SoleShell q) {t : Task} (ht : q.born r op = some t)
    (hn : n ∈ q.nodes) (hne : op.leaves = true → n ≠ r) : (q.process n).pid ≠ t.pid := by
  unfold born at ht
  split at ht
  · obtain rfl := Option.some.inj ht
    exact Nat.ne_of_lt (h.pid_lt n hn)
  · obtain rfl := Option.some.inj ht
    exact fun hp => hne rfl (hd n hn r (h.mem_running hr) hp)
  · obtain rfl := Option.some.inj ht
    intro hp
    have hrn : r = n := by simpa [hr] using hop rfl n hn hp
    exact hne rfl hrn.symm
  · cases ht

theorem edit_distinct (h : Wf q) (hd : Distinct q) (hr : q.running = some r) {op : Op} {go : Bool}
    (hop : op = .pageFault → SoleShell q) (he : q.edit r op = some (q', go)) : Distinct q' := by
  intro m hm n hn hp
  rcases edit_origin h hr he hm with ⟨⟨hm, hpm, -⟩, hme⟩ | ⟨rfl, hbm⟩ <;>
    rcases edit_origin h hr he hn with ⟨⟨hn, hpn, -⟩, hne⟩ | ⟨rfl, hbn⟩
  · exact hd m hm n hn (by rw [← hpm, hp, hpn])
  · exact absurd (hpm.symm.trans hp) (born_pid_ne h hd hr hop hbn hm hme)
  · exact absurd (hpn.symm.trans hp.symm) (born_pid_ne h hd hr hop hbm hn hne)
  · rfl

theorem step_distinct (h : Wf q) (hd : Distinct q) {op : Op}
    (hop : op = .pageFault → SoleShell q) (hs : q.step op = some q') : Distinct q' := by
  obtain ⟨r, q₁, go, hr, he, hgo⟩ := step_cases hs
  have hd₁ := edit_distinct h hd hr hop he
  have hw := edit_wf h hr he
  cases go
  · obtain rfl := hgo
    exact hd₁
  · exact hd₁.schedule hw hgo

/-- After a page fault both the new shell and any other task with pid 1 are in the list. -/
theorem soleShell_of_distinct (h : Wf q) (hs : q.step .pageFault = some q') (hd : Distinct q') :
    SoleShell q := by
  obtain ⟨r, q₁, go, hr, he, hgo⟩ := step_cases hs
  have hw := edit_wf h hr he
  obtain ⟨q₂, hl, hq⟩ := Option.map_eq_some_iff.1 he
  obtain ⟨rfl, rfl⟩ := Prod.mk.inj hq
  obtain ⟨r', hr', -, hq₂⟩ := leave_cases hl
  obtain rfl : r = r' := by simpa [loadSbush_running h hr] using hr'
  obtain ⟨hnodes, -⟩ := schedule_frame hw hgo
  have hmem : ∀ n, n ∈ q'.nodes ↔ n ≠ r ∧ n ∈ q.nodes ++ [q.fresh] := by
    intro n
    rw [hnodes, hq₂]
    exact List.Nodup.mem_erase_iff h.loadSbush.nodup
  have hpid : ∀ n, (q'.process n).pid = (q.loadSbush.process n).pid := by
    intro n
    rw [schedule_pid hw hgo, hq₂]
    rfl
  have hfresh : ∀ n ∈ q.nodes, n ≠ q.fresh := fun n hn => Nat.ne_of_lt (h.lt_fresh n hn)
  intro n hn hp
  by_contra hne
  have hnr : n ≠ r := fun he => hne (he ▸ hr)
  refine hfresh n hn (hd n ((hmem n).2 ⟨hnr, by simp [hn]⟩) q.fresh
    ((hmem _).2 ⟨(hfresh r (h.mem_running hr)).symm, by simp⟩) ?_)
  rw [hpid, hpid]
  simp [loadSbush, add, hfresh n hn, hp]

end TaskQueue

namespace Sched

/-- The pids in the list are pairwise distinct and smaller than `PID`. -/
def PidsDistinct (s : Sched) : Prop :=
  ∃ l, Linked.Chain s.next s.queueHead l ∧ (l.map fun n => (s.process n).pid).Nodup ∧
    ∀ n ∈ l, (s.process n).pid < s.PID

/-- No task other than the running one has the pid `load_sbush` gives the new shell. -/
def SoleShell (s : Sched) : Prop :=
  ∀ l, Linked.Chain s.next s.queueHead l → ∀ n ∈ l, (s.process n).pid = 1 → s.runningTask = some n

variable {s : Sched} {q : TaskQueue}

theorem soleShell_iff (h : Refines s q) : s.SoleShell ↔ q.SoleShell := by
  constructor
  · intro hs n hn hp
    rw [← h.running]
    exact hs _ h.chain n hn (by rw [h.process]; exact hp)
  · intro hq l hl n hn hp
    rw [h.running]
    rw [hl.unique h.chain] at hn
    exact hq n hn (by rw [← h.process]; exact hp)

theorem pidsDistinct_iff (h : Refines s q) (hw : q.Wf) : s.PidsDistinct ↔ q.Distinct := by
  constructor
  · rintro ⟨l, hl, hd, -⟩ m hm n hn hp
    rw [hl.unique h.chain, h.process] at hd
    exact List.inj_on_of_nodup_map hd hm hn hp
  · intro hd
    refine ⟨q.nodes, h.chain, ?_, fun n hn => ?_⟩
    · rw [h.process]
      exact List.Nodup.map_on (fun m hm n hn => hd m hm n hn) h.nodup
    · rw [h.process, h.PID]
      exact hw.pid_lt n hn

/-- A step that is not a page fault while another task has pid 1. -/
def ShellStep (s : Sched) (op : Op) (s' : Sched) : Prop :=
  (op = .pageFault → s.SoleShell) ∧ s.step op = .ok s'

/-- If every page fault of a run is taken while nobody else has pid 1, pids identify tasks in
every state of it; and a page fault taken otherwise ends that. -/
theorem pids_distinct (h : Reach ShellStep boot s) :
    s.PidsDistinct ∧ ∀ s', s.step .pageFault = .ok s' → (s'.PidsDistinct ↔ s.SoleShell) := by
  obtain ⟨q, hq, hw, hd⟩ := reach_refines (P := TaskQueue.Distinct) (fun _ _ _ hs => hs.2)
    (by unfold TaskQueue.Distinct; decide)
    (fun s q op s' q' hR hw hd hs hq' =>
      TaskQueue.step_distinct hw hd (fun hop => (soleShell_iff hR).1 (hs.1 hop)) hq') h
  refine ⟨(pidsDistinct_iff hq hw).2 hd, fun s' hs => ?_⟩
  obtain ⟨q', hq', hR⟩ := (step_sim hq hw .pageFault).of_ok hs
  rw [pidsDistinct_iff hR (TaskQueue.step_wf hw hq'), soleShell_iff hq]
  exact ⟨TaskQueue.soleShell_of_distinct hw hq',
    fun hsole => TaskQueue.step_distinct hw hd (fun _ => hsole) hq'⟩

/-- The shell takes a page fault itself: the new shell may have its pid. -/
theorem pids_distinct_shell_fault :
    ∃ s, boot.step .pageFault = .ok s ∧ s.PidsDistinct := by
  refine ⟨(boot.step .pageFault).toOption.getD empty, rfl, ?_⟩
  refine (pids_distinct
    (Reach.step (a := .pageFault) Reach.start ⟨fun _ l hl n hn hp => ?_, rfl⟩)).1
  rw [hl.unique boot_refines.chain] at hn
  have hlist : n = 0 ∨ n = 1 := by simpa [TaskQueue.boot] using hn
  rcases hlist with rfl | rfl
  · cases hp
  · rfl

/-- The shell forks, and its child takes a page fault: two tasks with pid 1. -/
theorem pids_not_distinct :
    ∃ s, boot.run [.fork, .yield, .pageFault] = .ok s ∧ Reach Step boot s ∧
      Linked.Chain s.next s.queueHead [0, 1, 3] ∧ (s.process 1).pid = 1 ∧ (s.process 3).pid = 1 ∧
      ¬ s.PidsDistinct := by
  have hc : Linked.Chain ((boot.run [.fork, .yield, .pageFault]).toOption.getD empty).next
      ((boot.run [.fork, .yield, .pageFault]).toOption.getD empty).queueHead [0, 1, 3] :=
    ⟨rfl, rfl, rfl, rfl⟩
  refine ⟨_, rfl, reach_of_run [.fork, .yield, .pageFault] rfl, hc, rfl, rfl, ?_⟩
  rintro ⟨l, hl, hd, -⟩
  rw [hl.unique hc] at hd
  exact absurd (List.inj_on_of_nodup_map hd (x := 1) (y := 3) (by decide) (by decide) rfl)
    (by decide)

end Sched

end Bgox
