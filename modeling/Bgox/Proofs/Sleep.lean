import Mathlib.Data.List.TakeWhile
import Bgox.Proofs.Wait

/-!
# Sleeping

`sys_sleep` marks the caller and notes how many ticks it asked for; `dec_sleep_count` counts every
marked task of the list down and takes the mark away when the count arrives at 0.  What an
operation does to the mark and the count of a task is `TaskQueue.napAfter`, whatever else it does.

A task that asks for `t ≥ 1` ticks has its mark for exactly `t` of them, and while it has,
`schedule` selects it only if it heads the list and nobody behind the start of the scan is ready
(`sleep_lasts`).  A task that asks for 0 is marked with a count of 0, which the next tick takes to
`2 ^ 64 - 1` (`sleep_zero_never_ends`).
-/

namespace Bgox

open Run (Reach)

/-- The fields `dec_sleep_count` looks at: `is_sleeping` and `sleep_time`. -/
def Task.nap (t : Task) : ℕ × ℕ := (t.isSleeping, t.sleepTime)

namespace TaskQueue

variable {q q' : TaskQueue} {r n P k : ℕ}

/-! ## What an operation does to a sleeping task -/

/-- `r` does the operation. -/
def napAfter (q : TaskQueue) (r : ℕ) (op : Op) (n : ℕ) : ℕ × ℕ :=
  match op with
  | .tick => (Sched.tickTask (q.process n)).nap
  | .sleep time _ => if n = r then (1, (time % 2 ^ 64).toNat) else (q.process n).nap
  | _ => (q.process n).nap

theorem setProcess_nap {t : Task} (ht : t.nap = (q.process r).nap) (n : ℕ) :
    ((q.setProcess r t).process n).nap = (q.process n).nap := by
  by_cases hn : n = r
  · subst hn
    simpa [setProcess] using ht
  · simp [setProcess, hn]

theorem add_process_of_lt (t : Task) (hn : n < q.fresh) : (q.add t).process n = q.process n := by
  simp [add, Nat.ne_of_lt hn]

theorem doze_nap (q : TaskQueue) (r : ℕ) (time : ℤ) (n : ℕ) :
    ((q.doze r time).process n).nap =
      if n = r then (1, (time % 2 ^ 64).toNat) else (q.process n).nap := by
  by_cases hn : n = r
  · subst hn
    simp [doze, setProcess, Task.nap]
  · simp [doze, setProcess, hn]

theorem edit_nap (h : Sound q) (hn : n ∈ q.nodes) {op : Op} {go : Bool}
    (he : q.edit r op = some (q', go)) : (q'.process n).nap = q.napAfter r op n := by
  have hlt := h.lt_fresh n hn
  have hwaits : op.Waits → q.napAfter r op n = (q.process n).nap := by
    rintro (rfl | ⟨pid, rfl⟩) <;> rfl
  cases edit_cases he with
  | yield | killKernel | kill | killNone => rfl
  | fork => exact congrArg Task.nap (add_process_of_lt (q := { q with PID := q.PID + 1 }) _ hlt)
  | leave hop hl =>
    rw [leave_process hl]
    rcases hop with rfl | rfl <;> rfl
  | exec hl =>
    rw [add_process_of_lt _ (by rw [leave_fresh hl]; exact hlt), leave_process hl]
    rfl
  | sleep => exact doze_nap _ r _ n
  | sleepBg =>
    rw [doze_nap]
    simp only [setProcess_nap (q := q) (r := r) (t := { q.process r with isBg := 1 }) rfl n]
    rfl
  | await hop c =>
    rw [hwaits hop]
    exact setProcess_nap (t := { q.process r with isWaiting := (q.process c).pid }) rfl n
  | goOn hop => rw [hwaits hop]
  | killSelf _ _ _ hl =>
    rw [leave_process hl]
    rfl
  | tick => exact congrArg Task.nap (if_pos hn)
  | pageFault hl =>
    rw [leave_process hl]
    exact congrArg Task.nap (add_process_of_lt (q := { q with PID := q.PID + 1 }) _ hlt)

theorem settleAll_nap (ns : List ℕ) (n : ℕ) :
    ((q.settleAll ns).process n).nap = (q.process n).nap := by
  unfold settleAll settled
  dsimp only
  split_ifs <;> rfl

theorem schedule_nap (h : Ready q) (hs : q.schedule = some q') (n : ℕ) :
    (q'.process n).nap = (q.process n).nap := by
  obtain ⟨-, hp, -⟩ := schedule_frame h hs
  rw [hp, settleAll_nap]

theorem step_nap (h : Wf q) (hr : q.running = some r) (hn : n ∈ q.nodes) {op : Op}
    (hs : q.step op = some q') : (q'.process n).nap = q.napAfter r op n := by
  obtain ⟨q₁, go, he, hgo⟩ := step_edit hr hs
  rw [← edit_nap h.toSound hn he]
  cases go
  · obtain rfl := hgo
    rfl
  · exact schedule_nap (edit_wf h hr he) hgo n

/-! ## Whom a call of `schedule` selects -/

/-- A call of `schedule` goes round to the head: nobody behind the start of the scan is ready. -/
def Wraps (q : TaskQueue) : Prop :=
  ∀ p, q.running.or q.previous = some p → ∀ n ∈ q.after p, q.blockedAt n = true

theorem pick_blocked_iff (hb : q.blockedAt n = true) (p : ℕ) :
    q.pick p = some n ↔ q.nodes.head? = some n ∧ ∀ m ∈ q.after p, q.blockedAt m = true := by
  unfold pick
  rcases hd : (q.after p).dropWhile q.blockedAt with _ | ⟨m, l⟩
  · have hall := List.dropWhile_eq_nil_iff.1 hd
    simpa using fun _ : q.nodes.head? = some n => hall
  · have hm : m ∈ q.after p := (List.dropWhile_sublist _).subset (hd ▸ List.mem_cons_self)
    have hready := List.head?_dropWhile_not q.blockedAt (q.after p)
    rw [hd] at hready
    replace hready : q.blockedAt m = false := by simpa using hready
    constructor
    · intro hmn
      obtain rfl : m = n := by simpa using hmn
      simp [hb] at hready
    · rintro ⟨-, hall⟩
      simp [hall m hm] at hready

/-- A blocked task is selected exactly if the scan goes round to it. -/
theorem schedule_blocked_iff (h : Ready q) (hs : q.schedule = some q')
    (hb : q.blockedAt n = true) :
    q'.running = some n ↔ q.nodes.head? = some n ∧ q.Wraps := by
  rcases schedule_cases h hs with
    ⟨r, -, hr, rfl⟩ | ⟨p, -, hr, hp, ha, rfl⟩ | ⟨p, -, hr, hp, ha, rfl⟩
  · simpa [Wraps, hr] using pick_blocked_iff hb r
  · simp [Wraps, hr, hp, ha]
  · simpa [Wraps, hr, hp] using pick_blocked_iff hb p

/-! ## Over whole runs -/

/-- `P` is in the list, does not run and sleeps for `k` more ticks. -/
structure Sleeps (q : TaskQueue) (P k : ℕ) : Prop where
  mem : P ∈ q.nodes
  nap : (q.process P).nap = (1, k)
  idle : q.running ≠ some P

theorem Sleeps.isSleeping (h : q.Sleeps P k) : (q.process P).isSleeping = 1 :=
  congrArg Prod.fst h.nap

theorem blockedAt_of_nap (h : (q.process n).nap = (1, k)) : q.blockedAt n = true := by
  have hs : (q.process n).isSleeping = 1 := congrArg Prod.fst h
  simp [blockedAt, Task.blocked, hs]

/-- The count goes down and the mark goes with the last tick. -/
theorem tickTask_nap {t : Task} (h : t.nap = (1, k + 1)) (hk : k + 1 < 2 ^ 64) :
    (Sched.tickTask t).nap = (if k = 0 then 0 else 1, k) := by
  have hs : t.isSleeping = 1 := congrArg Prod.fst h
  have ht : t.sleepTime = k + 1 := congrArg Prod.snd h
  have hleft : (k + 1 + (2 ^ 64 - 1)) % 2 ^ 64 = k := by omega
  simp only [Sched.tickTask, if_pos hs, ht, hleft, Task.nap]

/-- The operation calls `schedule` and the call goes round to `P`. -/
def WrapsTo (q : TaskQueue) (r : ℕ) (op : Op) (P : ℕ) : Prop :=
  ∃ q₁, q.edit r op = some (q₁, true) ∧ q₁.nodes.head? = some P ∧ q₁.Wraps

theorem edit_selects_iff {q₁ : TaskQueue} (h : Wf q) (hr : q.running = some r) {op : Op}
    (he : q.edit r op = some (q₁, true)) (hP : P ∈ q.nodes) (hnap : q.napAfter r op P = (1, k))
    (hs : q₁.schedule = some q') : q'.running = some P ↔ q.WrapsTo r op P := by
  have hb : q₁.blockedAt P = true := blockedAt_of_nap ((edit_nap h.toSound hP he).trans hnap)
  rw [schedule_blocked_iff (edit_wf h hr he) hs hb]
  simp [WrapsTo, he]

theorem napAfter_of_ne (hne : P ≠ r) {op : Op} (hop : op ≠ .tick) :
    q.napAfter r op P = (q.process P).nap := by
  unfold napAfter
  split
  · exact absurd rfl hop
  · exact if_neg hne
  · rfl

/-- A sleeping task is selected exactly if the scan goes round to it. -/
theorem step_selects_iff (h : Wf q) (hr : q.running = some r) (hz : q.Sleeps P k) {op : Op}
    (hs : q.step op = some q') : q'.running = some P ↔ q.WrapsTo r op P := by
  obtain ⟨q₁, go, he, hgo⟩ := step_edit hr hs
  have hne : P ≠ r := by
    rintro rfl
    exact hz.idle hr
  cases go
  · obtain rfl := hgo
    rw [(edit_frame h he).2 rfl]
    simp [WrapsTo, he, hz.idle]
  · have hop : op ≠ .tick := by
      rintro rfl
      cases he
    exact edit_selects_iff h hr he hz.mem ((napAfter_of_ne hne hop).trans hz.nap) hgo

/-- What another task or the timer does to a sleeping task, up to its last tick. -/
theorem step_sleeps (h : Wf q) (hr : q.running = some r) (hz : q.Sleeps P (k + 1))
    (hk : k + 1 < 2 ^ 64) {op : Op} (hs : q.step op = some q') (hP : P ∈ q'.nodes)
    (hw : ¬ q.WrapsTo r op P) (hlast : op = .tick → k ≠ 0) :
    q'.Sleeps P (if op = .tick then k else k + 1) := by
  refine ⟨hP, ?_, fun hrun => hw ((step_selects_iff h hr hz hs).1 hrun)⟩
  rw [step_nap h hr hz.mem hs]
  by_cases hop : op = .tick
  · subst hop
    rw [if_pos rfl]
    exact (tickTask_nap hz.nap hk).trans (by rw [if_neg (hlast rfl)])
  · have hne : P ≠ r := by
      rintro rfl
      exact hz.idle hr
    rw [napAfter_of_ne hne hop, if_neg hop]
    exact hz.nap

/-- `sys_sleep` calls `schedule` and leaves the list as it is. -/
theorem edit_sleep {q₁ : TaskQueue} {time : ℤ} {bg go : Bool}
    (he : q.edit r (.sleep time bg) = some (q₁, go)) : go = true ∧ q₁.nodes = q.nodes := by
  cases bg <;> obtain ⟨rfl, rfl⟩ := Prod.mk.inj (Option.some.inj he) <;> exact ⟨rfl, rfl⟩

theorem step_sleep_nodes (h : Wf q) {time : ℤ} {bg : Bool}
    (hs : q.step (.sleep time bg) = some q') : q'.nodes = q.nodes := by
  obtain ⟨r, q₁, go, hr, he, hgo⟩ := step_cases hs
  obtain ⟨rfl, hnodes⟩ := edit_sleep he
  exact (schedule_frame (edit_wf h hr he) hgo).1.trans hnodes

/-- The call of `sys_sleep`. -/
theorem sleep_sleeps (h : Wf q) (hr : q.running = some P) {t : ℕ} {bg : Bool} (ht : t < 2 ^ 31)
    (hs : q.step (.sleep t bg) = some q') :
    P ∈ q'.nodes ∧ (q'.process P).nap = (1, t) ∧
      (q'.running = some P ↔ q.WrapsTo P (.sleep t bg) P) := by
  have hmem := h.mem_running hr
  have hnap : q.napAfter P (.sleep t bg) P = (1, t) := by
    simp only [napAfter, if_pos, Prod.mk.injEq, true_and]
    omega
  refine ⟨step_sleep_nodes h hs ▸ hmem, (step_nap h hr hmem hs).trans hnap, ?_⟩
  obtain ⟨q₁, go, he, hgo⟩ := step_edit hr hs
  obtain ⟨rfl, -⟩ := edit_sleep he
  exact edit_selects_iff h hr he hmem hnap hgo

/-! ## Every mark has a count -/

/-- A task that sleeps has a tick to wait for. -/
def Timed (q : TaskQueue) : Prop :=
  ∀ n ∈ q.nodes, (q.process n).isSleeping = 1 → 1 ≤ (q.process n).sleepTime

theorem born_nap {op : Op} {t : Task} (h : q.born r op = some t) : t.nap = (0, 0) := by
  unfold born at h
  split at h <;> first | (obtain rfl := Option.some.inj h; rfl) | cases h

/-- The tasks after an operation are tasks from before it and a new one that does not sleep. -/
theorem step_nap_cases (h : Wf q) (hr : q.running = some r) {op : Op} (hs : q.step op = some q')
    (hn : n ∈ q'.nodes) :
    (n ∈ q.nodes ∧ (q'.process n).nap = q.napAfter r op n) ∨ (q'.process n).nap = (0, 0) := by
  obtain ⟨q₁, go, he, hgo⟩ := step_edit hr hs
  have hkept : n ∈ q₁.nodes ∧ (q'.process n).nap = (q₁.process n).nap := by
    cases go
    · obtain rfl := hgo
      exact ⟨hn, rfl⟩
    · have hready := edit_wf h hr he
      obtain ⟨hnodes, -⟩ := schedule_frame hready hgo
      exact ⟨hnodes ▸ hn, schedule_nap hready hgo n⟩
  rcases edit_origin h hr he hkept.1 with ⟨⟨hm, -⟩, -⟩ | ⟨-, hb⟩
  · exact Or.inl ⟨hm, step_nap h hr hm hs⟩
  · exact Or.inr (hkept.2.trans (born_nap hb))

end TaskQueue

/-- `sys_sleep` with no time to sleep. -/
def Op.SleepsZero (op : Op) : Prop := ∃ time bg, op = .sleep time bg ∧ time % 2 ^ 64 = 0

namespace TaskQueue

variable {q q' : TaskQueue}

theorem tickTask_timed {t : Task} (h : t.isSleeping = 1 → 1 ≤ t.sleepTime)
    (hs : (Sched.tickTask t).isSleeping = 1) : 1 ≤ (Sched.tickTask t).sleepTime := by
  by_cases hz : t.isSleeping = 1
  · simp only [Sched.tickTask, if_pos hz] at hs ⊢
    split_ifs at hs with hleft
    omega
  · simp only [Sched.tickTask, if_neg hz] at hs ⊢
    exact h hs

/-- One step: exactly `sleep 0` makes a mark without a count. -/
theorem step_timed_iff (h : Wf q) (ht : q.Timed) {op : Op} (hs : q.step op = some q') :
    q'.Timed ↔ ¬ op.SleepsZero := by
  obtain ⟨r, hmem, hr⟩ := h.running
  constructor
  · rintro ht' ⟨time, bg, rfl, hzero⟩
    have hnap := step_nap h hr hmem hs
    simp only [napAfter, if_pos, hzero, Int.toNat_zero] at hnap
    have hr' : r ∈ q'.nodes := step_sleep_nodes h hs ▸ hmem
    have := ht' r hr' (congrArg Prod.fst hnap)
    rw [show (q'.process r).sleepTime = 0 from congrArg Prod.snd hnap] at this
    omega
  · intro hop n hn
    show (q'.process n).nap.1 = 1 → 1 ≤ (q'.process n).nap.2
    rcases step_nap_cases h hr hs hn with ⟨hn, hnap⟩ | hnap
    · rw [hnap]
      unfold napAfter
      split
      · exact tickTask_timed (ht n hn)
      · rename_i time bg
        split_ifs
        · intro _
          have hne : time % 2 ^ 64 ≠ 0 := fun hzero => hop ⟨time, bg, rfl, hzero⟩
          have hpos := Int.emod_nonneg time (show (2 ^ 64 : ℤ) ≠ 0 by decide)
          dsimp only
          omega
        · exact ht n hn
      · exact ht n hn
    · simp [hnap]

end TaskQueue

/-- The list is what the pointers say. -/
theorem Refines.unique {s : Sched} {q q' : TaskQueue} (h : Refines s q) (h' : Refines s q') :
    q = q' := by
  have hnodes := h.chain.unique h'.chain
  cases q
  cases q'
  simp only [TaskQueue.mk.injEq]
  exact ⟨hnodes, h.process.symm.trans h'.process, h.running.symm.trans h'.running,
    h.previous.symm.trans h'.previous, h.taskCount.symm.trans h'.taskCount,
    h.PID.symm.trans h'.PID, h.isBg.symm.trans h'.isBg, h.fresh.symm.trans h'.fresh⟩

namespace Sched

variable {s s' : Sched} {q : TaskQueue} {P : ℕ}

/-- `P` is in the list. -/
def Listed (s : Sched) (P : ℕ) : Prop := ∃ l, Linked.Chain s.next s.queueHead l ∧ P ∈ l

/-- Every task in the list with `is_sleeping = 1` has `sleep_time ≥ 1`. -/
def Timed (s : Sched) : Prop :=
  ∃ l, Linked.Chain s.next s.queueHead l ∧
    ∀ n ∈ l, (s.process n).isSleeping = 1 → 1 ≤ (s.process n).sleepTime

/-- The call of `schedule` the operation makes finds no task ready behind the one it starts from,
and `P` at the head of the list. -/
def WrapsTo (s : Sched) (op : Op) (P : ℕ) : Prop :=
  ∃ q r, Refines s q ∧ q.running = some r ∧ q.WrapsTo r op P

/-- Nobody sleeps for no time. -/
def TimedStep (s : Sched) (op : Op) (s' : Sched) : Prop :=
  ¬ op.SleepsZero ∧ s.step op = .ok s'

/-- A step of a run that counts its ticks, in which `P` stays in the list and `schedule` does not
go round to it. -/
def SleepStep (P : ℕ) (x : Sched × ℕ) (op : Op) (x' : Sched × ℕ) : Prop :=
  x.1.step op = .ok x'.1 ∧ x'.1.Listed P ∧ ¬ x.1.WrapsTo op P ∧
    x'.2 = if op = .tick then x.2 + 1 else x.2

theorem listed_iff (h : Refines s q) : s.Listed P ↔ P ∈ q.nodes := by
  constructor
  · rintro ⟨l, hl, hP⟩
    rw [← hl.unique h.chain]
    exact hP
  · intro hP
    exact ⟨q.nodes, h.chain, hP⟩

theorem timed_iff (h : Refines s q) : s.Timed ↔ q.Timed := by
  constructor
  · rintro ⟨l, hl, ht⟩
    rw [hl.unique h.chain, h.process] at ht
    exact ht
  · intro ht
    refine ⟨q.nodes, h.chain, ?_⟩
    rw [h.process]
    exact ht

theorem wrapsTo_iff (h : Refines s q) {r : ℕ} (hr : q.running = some r) (op : Op) :
    s.WrapsTo op P ↔ q.WrapsTo r op P := by
  constructor
  · rintro ⟨q', r', h', hr', hw⟩
    obtain rfl := h.unique h'
    obtain rfl : r = r' := by simpa [hr] using hr'
    exact hw
  · intro hw
    exact ⟨q, r, h, hr, hw⟩

/-- In every state of a run without `sleep 0`, every sleeping task has a tick to wait for, and the
next step keeps this exactly if it is not `sleep 0`. -/
theorem reach_timed (h : Reach TimedStep boot s) :
    s.Timed ∧ ∀ op s', s.step op = .ok s' → (s'.Timed ↔ ¬ op.SleepsZero) := by
  obtain ⟨q, hq, hw, ht⟩ := reach_refines (P := TaskQueue.Timed) (fun _ _ _ hs => hs.2)
    (by unfold TaskQueue.Timed; decide)
    (fun _ _ _ _ _ _ hw ht hs hq' => (TaskQueue.step_timed_iff hw ht hq').2 hs.1) h
  refine ⟨(timed_iff hq).2 ht, fun op s' hs => ?_⟩
  obtain ⟨q', hq', hR⟩ := (step_sim hq hw op).of_ok hs
  rw [timed_iff hR]
  exact TaskQueue.step_timed_iff hw ht hq'

/-- Between the call of `sys_sleep` and the `t`-th tick. -/
def Asleep (P t : ℕ) (x : Sched × ℕ) : Prop :=
  x.2 < t → ∃ q, Refines x.1 q ∧ q.Wf ∧ q.Sleeps P (t - x.2)

theorem sleepStep_asleep {t : ℕ} (ht : t < 2 ^ 31) {x x' : Sched × ℕ} {op : Op}
    (h : Asleep P t x) (hs : SleepStep P x op x') : Asleep P t x' := by
  obtain ⟨hs, hP, hw, hk⟩ := hs
  intro hlt
  have hle : x.2 ≤ x'.2 := by
    rw [hk]
    split_ifs <;> omega
  obtain ⟨q, hq, hwf, hz⟩ := h (by omega)
  obtain ⟨q', hq', hR⟩ := (step_sim hq hwf op).of_ok hs
  obtain ⟨r, -, hr⟩ := hwf.running
  obtain ⟨k, hk'⟩ : ∃ k, t - x.2 = k + 1 := ⟨t - x.2 - 1, by omega⟩
  rw [hk'] at hz
  have hz' := TaskQueue.step_sleeps hwf hr hz (by omega) hq' ((listed_iff hR).1 hP)
    (fun hw' => hw ((wrapsTo_iff hq hr op).2 hw')) (by
      rintro rfl
      rw [if_pos rfl] at hk
      omega)
  refine ⟨q', hR, TaskQueue.step_wf hwf hq', ?_⟩
  convert hz' using 1
  rw [hk]
  split_ifs <;> omega

/-- The last of the ticks takes the mark away, and no other does. -/
theorem tick_isSleeping {k : ℕ} {s' : Sched} (hq : Refines s q) (hwf : q.Wf)
    (hz : q.Sleeps P (k + 1)) (hk : k + 1 < 2 ^ 64) (hs : s.step .tick = .ok s') :
    (s'.process P).isSleeping = if k = 0 then 0 else 1 := by
  obtain ⟨q', hq', hR⟩ := (step_sim hq hwf .tick).of_ok hs
  obtain ⟨r, -, hr⟩ := hwf.running
  have hnap := TaskQueue.step_nap hwf hr hz.mem hq'
  rw [TaskQueue.napAfter, TaskQueue.tickTask_nap hz.nap hk] at hnap
  rw [hR.process]
  exact congrArg Prod.fst hnap

/-- In a state that has been reached without `sleep 0` every mark has a count.  And in every state
that has been reached, what a call of `sys_sleep(t)` comes to in a run in which the caller stays in
the list and `schedule` does not go round to it: it is marked at once, is not selected before the
`t`-th tick, and the `t`-th tick takes the mark away.  Before that tick, whether the next step
selects it is a question of whether the scan goes round to it. -/
theorem sleep_lasts {s₀ : Sched} (h₀ : Reach Step boot s₀) :
    (Reach TimedStep boot s₀ →
      s₀.Timed ∧ ∀ op s', s₀.step op = .ok s' → (s'.Timed ↔ ¬ op.SleepsZero)) ∧
    ∀ s₁ P t bg, s₀.runningTask = some P → t < 2 ^ 31 → s₀.step (.sleep (t : ℕ) bg) = .ok s₁ →
      (s₁.process P).isSleeping = 1 ∧
      (s₁.runningTask = some P ↔ s₀.WrapsTo (.sleep t bg) P) ∧
      (¬ s₀.WrapsTo (.sleep t bg) P → ∀ s k, Reach (SleepStep P) (s₁, 0) (s, k) → k < t →
        s.runningTask ≠ some P ∧
        (∀ op s', s.step op = .ok s' → (s'.runningTask = some P ↔ s.WrapsTo op P)) ∧
        (k + 1 = t → ∀ s', s.step .tick = .ok s' → (s'.process P).isSleeping = 0)) := by
  refine ⟨reach_timed, fun s₁ P t bg hP ht hs₁ => ?_⟩
  obtain ⟨q₀, hq₀, hw₀⟩ := reach_wf h₀
  have hr₀ : q₀.running = some P := hq₀.running ▸ hP
  obtain ⟨q₁, hq₁, hR₁⟩ := (step_sim hq₀ hw₀ _).of_ok hs₁
  obtain ⟨hmem, hnap, hsel⟩ := TaskQueue.sleep_sleeps hw₀ hr₀ ht hq₁
  rw [wrapsTo_iff hq₀ hr₀, hR₁.running, hR₁.process]
  refine ⟨congrArg Prod.fst hnap, hsel, fun hwrap s k h hk => ?_⟩
  have hstart : Asleep P t (s₁, 0) := fun _ =>
    ⟨q₁, hR₁, TaskQueue.step_wf hw₀ hq₁, hmem, hnap, fun hrun => hwrap (hsel.1 hrun)⟩
  have hinv := h.invariant hstart fun x op x' hx hs => sleepStep_asleep ht hx hs
  obtain ⟨q, hq, hwf, hz⟩ := hinv hk
  obtain ⟨r, -, hr⟩ := hwf.running
  refine ⟨by rw [hq.running]; exact hz.idle, fun op s' hs => ?_, fun hlast s' hs => ?_⟩
  · obtain ⟨q', hq', hR⟩ := (step_sim hq hwf op).of_ok hs
    rw [hR.running, wrapsTo_iff hq hr]
    exact TaskQueue.step_selects_iff hwf hr hz hq'
  · have hleft : t - k = 0 + 1 := by omega
    exact tick_isSleeping hq hwf (hleft ▸ hz) (by decide) hs

/-- The shell sleeps for two ticks while the boot task runs. -/
theorem sleep_lasts_two : ∃ s₁ s s', boot.step (.sleep 2 false) = .ok s₁ ∧
    s₁.step .tick = .ok s ∧ s.runningTask ≠ some 1 ∧
    s.step .tick = .ok s' ∧ (s'.process 1).isSleeping = 0 := by
  let s₁ := (boot.step (.sleep 2 false)).toOption.getD empty
  let s := (s₁.step .tick).toOption.getD empty
  obtain ⟨-, hsel, hlast⟩ :=
    (sleep_lasts Reach.start).2 s₁ 1 2 false rfl (by decide) rfl
  have hwrap : ¬ boot.WrapsTo (.sleep 2 false) 1 := fun hw => nomatch hsel.2 hw
  obtain ⟨-, hnext, -⟩ := hlast hwrap s₁ 0 Reach.start (by decide)
  have htick : ¬ s₁.WrapsTo .tick 1 := fun hw => nomatch (hnext .tick s rfl).2 hw
  have hstep : SleepStep 1 (s₁, 0) .tick (s, 1) :=
    ⟨rfl, ⟨[0, 1], ⟨rfl, rfl, rfl⟩, by decide⟩, htick, rfl⟩
  obtain ⟨hidle, -, hwake⟩ := hlast hwrap s 1 (Reach.start.step hstep) (by decide)
  exact ⟨s₁, s, _, rfl, rfl, hidle, rfl, hwake rfl _ rfl⟩

/-- The shell sleeps for no time: it stays marked with nothing to wait for, and the first tick
takes the count to its greatest value.  And a sleeping task that heads the list, the boot task
having been killed by a shell of its own, is selected by the sleep of the only other task. -/
theorem sleep_zero_never_ends :
    (∃ s₁ s₂, boot.step (.sleep 0 false) = .ok s₁ ∧ (s₁.process 1).isSleeping = 1 ∧
      (s₁.process 1).sleepTime = 0 ∧ s₁.step .tick = .ok s₂ ∧ (s₂.process 1).isSleeping = 1 ∧
      (s₂.process 1).sleepTime = 2 ^ 64 - 1) ∧
    ∃ s, boot.run [.fork, .yield, .pageFault, .kill 0, .sleep 5 false, .sleep 5 false] = .ok s ∧
      s.runningTask = some 1 ∧ (s.process 1).isSleeping = 1 ∧ (s.process 1).sleepTime = 5 :=
  ⟨⟨_, _, rfl, rfl, rfl, rfl, by decide, by decide⟩, _, rfl, rfl, rfl, rfl⟩

end Sched

end Bgox
