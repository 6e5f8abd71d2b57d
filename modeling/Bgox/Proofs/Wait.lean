import Bgox.Proofs.TaskRun

/-!
# Waiting for a child

`sys_waitpid` marks the caller as waiting for the child it picks and calls `schedule`, which passes
over marked tasks.  The scan takes the mark away from every task it passes whose child
`is_child_done` reports as done, and that is a child that has left the list or that is not asleep.
A child that is merely ready to run therefore releases its parent (`wait_returns_early`).  And where
the last `sleep` of any task was one in the background, `waitpid` returns without a mark: its flag
is not the caller's.

Otherwise the mark lasts as long as the child is asleep whenever a scan passes the parent
(`wait_waits`).
-/

namespace Bgox

open Run (Reach Sim)

namespace TaskQueue

variable {q q' : TaskQueue} {r P c : ℕ}

/-- `P` waits for `c`, unless it has left the list, and does not run. -/
structure Waits (q : TaskQueue) (P c : ℕ) : Prop where
  marked : P ∈ q.nodes → (q.process P).isWaiting = c
  idle : q.running ≠ some P
  old : P < q.fresh

/-- What a call of `schedule` must find for `P` to keep waiting for `c`: a task with pid `c` that is
in the list is asleep if the scan passes `P`, and `P` is not the task the scan wraps round to. -/
def Undisturbed (q : TaskQueue) (P c : ℕ) : Prop :=
  (P ∈ q.scanned → ∀ n, q.lookup c = some n → (q.process n).isSleeping ≠ 0) ∧
    q.nodes.head? ≠ some P

theorem childDone_eq_false {n : ℕ} (hn : q.lookup c = some n) (hs : (q.process n).isSleeping ≠ 0) :
    q.childDone c = false := by
  simp [childDone, hn, hs]

theorem lookup_of_mem {n : ℕ} (hn : n ∈ q.nodes) (hp : (q.process n).pid = c) :
    ∃ m, q.lookup c = some m := by
  rcases hl : q.lookup c with _ | m
  · have hnone := List.find?_eq_none.1 hl n hn
    simp [hp] at hnone
  · exact ⟨m, rfl⟩

/-- A call of `schedule` neither takes the mark away nor selects the waiting task. -/
theorem schedule_waits (h : Ready q) (hc : c ≠ 0)
    (hm : P ∈ q.nodes → (q.process P).isWaiting = c) (hu : q.Undisturbed P c)
    (hs : q.schedule = some q') (hpid : ∃ n ∈ q'.nodes, (q'.process n).pid = c) :
    (P ∈ q'.nodes → (q'.process P).isWaiting = c) ∧ q'.running ≠ some P := by
  obtain ⟨hnodes, hp, -⟩ := schedule_frame h hs
  obtain ⟨n, hn, hnc⟩ := hpid
  rw [hnodes] at hn
  rw [hp, settleAll_pid] at hnc
  obtain ⟨m, hlook⟩ := lookup_of_mem hn hnc
  refine ⟨fun hP => ?_, fun hrun => ?_⟩
  · rw [hnodes] at hP
    rw [hp]
    by_cases hscan : P ∈ q.scanned
    · have hdone := childDone_eq_false hlook (hu.1 hscan m hlook)
      simp [settleAll, settled, hscan, hm hP, hdone]
    · rw [settleAll_process_of_notMem hscan]
      exact hm hP
  · have hP : P ∈ q.nodes := hnodes ▸ (schedule_wf h hs).mem_running hrun
    rcases schedule_selects h hs hrun with hb | hhead
    · exact hc ((hm hP).symm.trans (Task.blocked_eq_false.1 hb).2)
    · exact hu.2 hhead

theorem edit_marked (h : Wf q) (hw : Waits q P c) (hr : q.running = some r) {op : Op} {go : Bool}
    (he : q.edit r op = some (q', go)) (hP : P ∈ q'.nodes) : (q'.process P).isWaiting = c := by
  rcases edit_origin h hr he hP with ⟨⟨hP, -, hk⟩, -⟩ | ⟨hf, -⟩
  · rw [hk fun hPr => hw.idle (hPr ▸ hr)]
    exact hw.marked hP
  · exact absurd hf (Nat.ne_of_lt hw.old)

/-- What another task or the timer does leaves `P` waiting. -/
theorem step_waits (h : Wf q) (hw : Waits q P c) (hc : c ≠ 0) {op : Op}
    (hu : ∀ r q₁, q.running = some r → q.edit r op = some (q₁, true) → q₁.Undisturbed P c)
    (hs : q.step op = some q') (hpid : ∃ n ∈ q'.nodes, (q'.process n).pid = c) :
    Waits q' P c := by
  obtain ⟨r, q₁, go, hr, he, hgo⟩ := step_cases hs
  have hm := edit_marked h hw hr he
  obtain ⟨hfresh, hrun⟩ := edit_frame h he
  cases go
  · obtain rfl := hgo
    exact ⟨hm, hrun rfl ▸ hw.idle, Nat.lt_of_lt_of_le hw.old hfresh⟩
  · obtain ⟨hm', hidle⟩ := schedule_waits (edit_wf h hr he) hc hm (hu r q₁ hr he) hgo hpid
    obtain ⟨-, -, -, hfresh'⟩ := schedule_frame (edit_wf h hr he) hgo
    exact ⟨hm', hidle, hfresh' ▸ Nat.lt_of_lt_of_le hw.old hfresh⟩

/-- The call itself. -/
theorem await_waits {k : ℕ} (h : Wf q) (hr : q.running = some P) (hk : k ∈ q.nodes)
    (hkc : (q.process k).pid = c) (hc : c ≠ 0) (hdone : q.childDone c = false)
    (hhead : q.nodes.head? ≠ some P) (hs : (q.await P k).schedule = some q') : Waits q' P c := by
  have hpid : ∀ n, ((q.await P k).process n).pid = (q.process n).pid := by
    intro n
    by_cases hn : n = P <;> simp [await, setProcess, hn]
  have hsleep : ∀ n, ((q.await P k).process n).isSleeping = (q.process n).isSleeping := by
    intro n
    by_cases hn : n = P <;> simp [await, setProcess, hn]
  have hready := (h.await P k).ready
  obtain ⟨hnodes, hp, -, hfresh⟩ := schedule_frame hready hs
  have hmark : ((q.await P k).process P).isWaiting = c := by simp [await, setProcess, hkc]
  have hu : (q.await P k).Undisturbed P c := by
    refine ⟨fun _ n hn hz => ?_, hhead⟩
    have hl : q.lookup c = some n := by
      rw [← hn]
      simp only [lookup, hpid]
      rfl
    rw [hsleep] at hz
    simp [childDone, hl, hz] at hdone
  obtain ⟨hm, hidle⟩ := schedule_waits hready hc (fun _ => hmark) hu hs
    ⟨k, hnodes ▸ hk, by rw [hp, settleAll_pid, hpid, hkc]⟩
  exact ⟨hm, hidle, hfresh ▸ h.lt_fresh P (h.mem_running hr)⟩

end TaskQueue

namespace Sched

/-- A task with pid `c` is in the list. -/
def HasPid (s : Sched) (c : ℕ) : Prop :=
  ∃ l, Linked.Chain s.next s.queueHead l ∧ ∃ n ∈ l, (s.process n).pid = c

/-- The call of `schedule` the operation makes, if it makes one, finds `c` asleep if it passes
`P`. -/
def Undisturbed (s : Sched) (op : Op) (P c : ℕ) : Prop :=
  ∀ q r q₁, Refines s q → q.running = some r → q.edit r op = some (q₁, true) → q₁.Undisturbed P c

/-- A step after which `c` is still in the list, and whose call of `schedule` finds it asleep if it
passes `P`. -/
def WaitStep (P c : ℕ) (s : Sched) (op : Op) (s' : Sched) : Prop :=
  s.step op = .ok s' ∧ s'.HasPid c ∧ s.Undisturbed op P c

/-- The argument of `sys_waitpid`, where the call does not return at once: `wait` passes no flag,
and system call 20 the global `is_bg` in the place of the caller's. -/
def awaits (s : Sched) : Op → Option ℕ
  | .wait => some 0
  | .waitpid pid => if s.isBg = 1 then none else some pid
  | _ => none

theorem step_awaits {s : Sched} {op : Op} {pid : ℕ} (h : s.awaits op = some pid) :
    ∃ bg, bg ≠ 1 ∧ s.step op = Prod.fst <$> s.sysWaitpid pid bg := by
  cases op with
  | wait =>
    obtain rfl := Option.some.inj h
    exact ⟨0, by decide, rfl⟩
  | waitpid pid' =>
    simp only [awaits] at h
    split_ifs at h with hbg
    obtain rfl := Option.some.inj h
    exact ⟨s.isBg, hbg, rfl⟩
  | _ => cases h

/-- The call leaves the caller waiting. -/
theorem exists_waits {s₀ s₁ : Sched} {q₀ : TaskQueue} {op : Op} {P c k pid : ℕ}
    (hq₀ : Refines s₀ q₀) (hw₀ : q₀.Wf) (hP : s₀.runningTask = some P)
    (hop : s₀.awaits op = some pid) (hpick : s₀.waitChild P pid = .ok (some k))
    (hkc : (s₀.process k).pid = c) (hc : c ≠ 0) (hs : s₀.step op = .ok s₁)
    (hchild : s₀.isChildDone c = .ok false) (hhead : s₀.queueHead ≠ some P) :
    ∃ q, Refines s₁ q ∧ q.Wf ∧ q.Waits P c := by
  have hr : q₀.running = some P := hq₀.running ▸ hP
  have hk : q₀.waitChild P pid = some k := by
    rw [waitChild_eq hq₀] at hpick
    exact Except.ok.inj hpick
  obtain ⟨bg, hbg, hstep⟩ := step_awaits hop
  rw [hstep, sysWaitpid_some hq₀ hr hbg hk] at hs
  have hsim := schedule_sim
    (hq₀.setProcess P { q₀.process P with isWaiting := (q₀.process k).pid })
    (hw₀.await P k).ready.canGo
  rcases hsched : (s₀.setProcess P
    { q₀.process P with isWaiting := (q₀.process k).pid }).schedule with e | s'
  · rw [hsched] at hs
    cases hs
  · rw [hsched] at hs
    obtain rfl := Except.ok.inj hs
    obtain ⟨q₁, hq₁, hR⟩ := hsim.of_ok hsched
    refine ⟨q₁, hR, TaskQueue.schedule_wf (hw₀.await P k).ready hq₁, ?_⟩
    refine TaskQueue.await_waits hw₀ hr ?_ (hq₀.process ▸ hkc) hc ?_ ?_ hq₁
    · unfold TaskQueue.waitChild at hk
      split_ifs at hk
      · exact List.mem_of_find?_eq_some hk
      · exact (TaskQueue.lookup_some hk).1
    · rw [isChildDone_eq hq₀] at hchild
      exact Except.ok.inj hchild
    · rw [← hq₀.head]
      exact hhead

/-- If the call does not return at once, and the child is asleep whenever `schedule` passes the
waiting task, from the call on, then the waiting task is not selected as long as the child is in the
list. -/
theorem wait_waits {s₀ s₁ s : Sched} {op : Op} {P c k pid : ℕ} (h₀ : Reach Step boot s₀)
    (hP : s₀.runningTask = some P) (hop : s₀.awaits op = some pid)
    (hpick : s₀.waitChild P pid = .ok (some k)) (hkc : (s₀.process k).pid = c) (hc : c ≠ 0)
    (hs : s₀.step op = .ok s₁) (hchild : s₀.isChildDone c = .ok false)
    (hhead : s₀.queueHead ≠ some P) (h : Reach (WaitStep P c) s₁ s) : s.runningTask ≠ some P := by
  obtain ⟨q₀, hq₀, hw₀⟩ := reach_wf h₀
  have hstart := exists_waits hq₀ hw₀ hP hop hpick hkc hc hs hchild hhead
  have hinv := h.invariant (P := fun s => ∃ q, Refines s q ∧ q.Wf ∧ q.Waits P c) hstart <| by
    rintro s op s' ⟨q, hq, hw, hwaits⟩ ⟨hs, ⟨l, hl, n, hn, hpid⟩, hu⟩
    obtain ⟨q', hq', hR⟩ := (step_sim hq hw op).of_ok hs
    refine ⟨q', hR, TaskQueue.step_wf hw hq', TaskQueue.step_waits hw hwaits hc
      (fun r q₁ => hu q r q₁ hq) hq' ⟨n, ?_, by rw [← hR.process]; exact hpid⟩⟩
    rw [← hl.unique hR.chain]
    exact hn
  obtain ⟨q, hq, -, hwaits⟩ := hinv
  rw [hq.running]
  exact hwaits.idle

/-- Nothing but a call of `schedule`. -/
theorem undisturbed_yield {s : Sched} {l : List ℕ} {P c : ℕ}
    (hl : Linked.Chain s.next s.queueHead l) (hhead : s.queueHead ≠ some P)
    (hsleep : ∀ n ∈ l, (s.process n).pid = c → (s.process n).isSleeping ≠ 0) :
    s.Undisturbed .yield P c := by
  intro q r q₁ hq _ he
  obtain ⟨rfl, -⟩ := Prod.mk.inj (Option.some.inj he)
  refine ⟨fun _ n hn => ?_, hq.head ▸ hhead⟩
  obtain ⟨hmem, hpid⟩ := TaskQueue.lookup_some hn
  rw [← hq.process] at hpid ⊢
  exact hsleep n (hl.unique hq.chain ▸ hmem) hpid

/-- A timer tick makes no such call. -/
theorem undisturbed_tick (s : Sched) (P c : ℕ) : s.Undisturbed .tick P c := by
  intro q r q₁ _ _ he
  cases (Prod.mk.inj (Option.some.inj he)).2

theorem hasPid_two {s : Sched} (hl : Linked.Chain s.next s.queueHead [0, 1, 2])
    (hpid : (s.process 2).pid = 2) : s.HasPid 2 := ⟨_, hl, 2, by decide, hpid⟩

/-- The child sleeps when the shell waits for it, for five ticks; after one of them, and after the
boot task has called `yield`, the shell does not run. -/
theorem wait_waits_asleep :
    ∃ s₀ s₁ s₂ s, boot.run [.fork, .yield, .sleep 5 false, .yield] = .ok s₀ ∧
      s₀.runningTask = some 1 ∧ s₀.step (.waitpid 2) = .ok s₁ ∧ s₁.step .tick = .ok s₂ ∧
      s₂.step .yield = .ok s ∧ s.runningTask ≠ some 1 := by
  refine ⟨_, _, _, _, rfl, rfl, rfl, rfl, rfl, ?_⟩
  refine wait_waits (c := 2) (k := 2) (reach_of_run [.fork, .yield, .sleep 5 false, .yield] rfl)
    rfl (show awaits _ (.waitpid 2) = some 2 from rfl) rfl rfl (by decide) rfl rfl (by decide)
    (.step (a := .yield) (.step (a := .tick) .start ⟨rfl, ?_, undisturbed_tick _ 1 2⟩)
      ⟨rfl, ?_, ?_⟩)
  · exact hasPid_two ⟨rfl, rfl, rfl, rfl⟩ rfl
  · exact hasPid_two ⟨rfl, rfl, rfl, rfl⟩ rfl
  · exact undisturbed_yield (l := [0, 1, 2]) ⟨rfl, rfl, rfl, rfl⟩ (by decide) (by decide)

/-- The shell waits for a child that does not sleep, and runs again before the child is gone; or it
waits for one that sleeps in the background, and its call returns at once. -/
theorem wait_returns_early :
    (∃ s₀ s₁ s, boot.run [.fork] = .ok s₀ ∧ s₀.runningTask = some 1 ∧
      s₀.waitChild 1 0 = .ok (some 2) ∧ s₀.step .wait = .ok s₁ ∧ s₁.HasPid 2 ∧
      s₁.run [.yield, .yield] = .ok s ∧ s.HasPid 2 ∧ s.runningTask = some 1) ∧
    ∃ s₀ s₁ s, boot.run [.fork, .yield, .sleep 5 true, .yield] = .ok s₀ ∧
      s₀.runningTask = some 1 ∧ s₀.waitChild 1 2 = .ok (some 2) ∧
      s₀.step (.waitpid 2) = .ok s₁ ∧ s₁.HasPid 2 ∧ s₁.run [.yield, .yield] = .ok s ∧
      s.HasPid 2 ∧ s.runningTask = some 1 := by
  exact ⟨⟨_, _, _, rfl, rfl, rfl, rfl, hasPid_two ⟨rfl, rfl, rfl, rfl⟩ rfl, rfl,
    hasPid_two ⟨rfl, rfl, rfl, rfl⟩ rfl, rfl⟩, ⟨_, _, _, rfl, rfl, rfl, rfl,
    hasPid_two ⟨rfl, rfl, rfl, rfl⟩ rfl, rfl, hasPid_two ⟨rfl, rfl, rfl, rfl⟩ rfl, rfl⟩⟩

end Sched

end Bgox
