import Bgox.Proofs.Refine

/-!
# What every operation keeps of the task list

Between two operations the running task and `previous` are in the list, and they are the same task
only if it is the head (`TaskQueue.Wf`): the next task is found behind the one that gives up the
processor or is the head.  So a task that leaves is not `previous`, and `schedule` can go on from
there.  A killer stays in the list, since no task is its own parent, and `schedule` sets `previous`
to the killer before it is looked at.

`step_wf` keeps this over every operation of every task, whatever it kills.
-/

namespace Bgox

open Linked (Fault)
open Run (Sim Reach)

/-- The two system calls that wait for a child. -/
def Op.Waits (op : Op) : Prop := op = .wait ∨ ∃ pid, op = .waitpid pid

namespace TaskQueue

/-- What holds of the tasks in the list whoever runs. -/
structure Sound (q : TaskQueue) : Prop where
  nodup : q.nodes.Nodup
  lt_fresh : ∀ n ∈ q.nodes, n < q.fresh
  pid_lt : ∀ n ∈ q.nodes, (q.process n).pid < q.PID
  ppid_ne : ∀ n ∈ q.nodes, (q.process n).ppid ≠ (q.process n).pid
  one_lt : 1 < q.PID

/-- `schedule` may be called. -/
structure Ready (q : TaskQueue) : Prop extends Sound q where
  go : (∃ r ∈ q.nodes, q.running = some r) ∨
    (q.running = none ∧ ∃ p ∈ q.nodes, q.previous = some p)

/-- What holds between two operations. -/
structure Wf (q : TaskQueue) : Prop extends Sound q where
  running : ∃ r ∈ q.nodes, q.running = some r
  previous : ∃ p ∈ q.nodes, q.previous = some p
  apart : q.running = q.previous → q.nodes.head? = q.running

variable {q q' : TaskQueue} {r n : ℕ}

theorem Wf.ready (h : Wf q) : Ready q := { h with go := Or.inl h.running }

theorem Wf.mem_running (h : Wf q) (hr : q.running = some r) : r ∈ q.nodes := by
  obtain ⟨r', hr', he⟩ := h.running
  obtain rfl : r' = r := by simpa [he] using hr
  exact hr'

theorem Ready.canGo (h : Ready q) : q.CanGo := by
  unfold CanGo
  rcases h.go with ⟨r, hr, he⟩ | ⟨he, p, hp, hpe⟩
  · simpa [he] using hr
  · rw [he]
    intro p' hp'
    rw [hpe] at hp'
    cases hp'
    exact hp

/-! ## schedule -/

theorem after_subset (q : TaskQueue) (n : ℕ) : ∀ m ∈ q.after n, m ∈ q.nodes := fun _ hm =>
  (List.dropWhile_sublist _).subset (List.mem_of_mem_tail hm)

theorem notMem_after (hd : q.nodes.Nodup) (hn : n ∈ q.nodes) : n ∉ q.after n := by
  obtain ⟨xs, rest, hl⟩ := List.append_of_mem hn
  rw [after_eq hd hl]
  rw [hl] at hd
  exact (List.nodup_cons.1 (List.nodup_append.1 hd).2.1).1

theorem pick_cases (q : TaskQueue) (n : ℕ) :
    (∃ m ∈ q.after n, q.blockedAt m = false ∧ q.pick n = some m) ∨ q.pick n = q.nodes.head? := by
  unfold pick
  rcases hd : (q.after n).dropWhile q.blockedAt with _ | ⟨m, l⟩
  · exact Or.inr rfl
  · refine Or.inl ⟨m, ?_, ?_, rfl⟩
    · exact (List.dropWhile_sublist _).subset (hd ▸ List.mem_cons_self)
    · have := List.head?_dropWhile_not q.blockedAt (q.after n)
      rw [hd] at this
      simpa using this

theorem exists_head (hn : n ∈ q.nodes) : ∃ m ∈ q.nodes, q.nodes.head? = some m := by
  cases hl : q.nodes with
  | nil => simp [hl] at hn
  | cons m l => exact ⟨m, by simp, rfl⟩

theorem exists_pick (hn : n ∈ q.nodes) : ∃ m ∈ q.nodes, q.pick n = some m := by
  rcases pick_cases q n with ⟨m, hm, -, hp⟩ | hp
  · exact ⟨m, q.after_subset n m hm, hp⟩
  · rw [hp]
    exact exists_head hn

theorem head_of_pick_self (hd : q.nodes.Nodup) (hn : n ∈ q.nodes) (h : q.pick n = some n) :
    q.nodes.head? = some n := by
  rcases pick_cases q n with ⟨m, hm, -, hp⟩ | hp
  · rw [h] at hp
    cases hp
    exact absurd hm (notMem_after hd hn)
  · rw [← hp, h]

@[simp] theorem settled_ppid (n : ℕ) : (q.settled n).ppid = (q.process n).ppid := by
  unfold settled
  dsimp only
  split <;> rfl

@[simp] theorem settleAll_ppid (ns : List ℕ) (n : ℕ) :
    ((q.settleAll ns).process n).ppid = (q.process n).ppid := by
  unfold settleAll
  dsimp only
  split <;> simp

theorem Sound.settleAll (h : Sound q) (ns : List ℕ) : Sound (q.settleAll ns) where
  nodup := h.nodup
  lt_fresh := h.lt_fresh
  pid_lt := fun n hn => by rw [settleAll_pid]; exact h.pid_lt n hn
  ppid_ne := fun n hn => by rw [settleAll_pid, settleAll_ppid]; exact h.ppid_ne n hn
  one_lt := h.one_lt

/-- What a call of `schedule` does to the state it is called in. -/
theorem schedule_cases (h : Ready q) (hs : q.schedule = some q') :
    (∃ r ∈ q.nodes, q.running = some r ∧
        q' = { q.settleAll (q.passed r) with previous := some r, running := q.pick r }) ∨
    (∃ p ∈ q.nodes, q.running = none ∧ q.previous = some p ∧ q.after p = [] ∧
        q' = { q with running := q.nodes.head? }) ∨
    (∃ p ∈ q.nodes, q.running = none ∧ q.previous = some p ∧ q.after p ≠ [] ∧
        q' = { q.settleAll (q.passed p) with running := q.pick p }) := by
  unfold schedule at hs
  rcases h.go with ⟨r, hr, he⟩ | ⟨he, p, hp, hpe⟩
  · rw [he] at hs
    exact Or.inl ⟨r, hr, he, by simpa using hs.symm⟩
  · rw [he, hpe] at hs
    dsimp only at hs
    split_ifs at hs with ha
    · exact Or.inr (Or.inl ⟨p, hp, he, hpe, ha, by simpa [hpe] using hs.symm⟩)
    · exact Or.inr (Or.inr ⟨p, hp, he, hpe, ha, by simpa using hs.symm⟩)

/-- `schedule` settles the tasks it scans and changes no other, nor the list. -/
theorem schedule_frame (h : Ready q) (hs : q.schedule = some q') :
    q'.nodes = q.nodes ∧ q'.process = (q.settleAll q.scanned).process ∧
      q'.taskCount = q.taskCount ∧ q'.fresh = q.fresh := by
  rcases schedule_cases h hs with
    ⟨r, -, hr, rfl⟩ | ⟨p, -, hr, hp, ha, rfl⟩ | ⟨p, -, hr, hp, ha, rfl⟩
  · exact ⟨rfl, by simp only [scanned, hr], rfl, rfl⟩
  · exact ⟨rfl, by simp [scanned, hr, hp, ha, settleAll], rfl, rfl⟩
  · exact ⟨rfl, by simp only [scanned, hr, hp, if_neg ha], rfl, rfl⟩

/-- The task `schedule` selects is not blocked, or is the head. -/
theorem schedule_selects (h : Ready q) (hs : q.schedule = some q') (hn : q'.running = some n) :
    q.blockedAt n = false ∨ q.nodes.head? = some n := by
  have hpick : ∀ m, q.pick m = some n → q.blockedAt n = false ∨ q.nodes.head? = some n := by
    intro m hm
    rcases pick_cases q m with ⟨k, -, hk, hp⟩ | hp
    · rw [hm] at hp
      cases hp
      exact Or.inl hk
    · exact Or.inr (hp ▸ hm)
  rcases schedule_cases h hs with ⟨r, -, -, rfl⟩ | ⟨p, -, -, -, -, rfl⟩ | ⟨p, -, -, -, -, rfl⟩
  · exact hpick r hn
  · exact Or.inr hn
  · exact hpick p hn

theorem exists_schedule (h : Ready q) : ∃ q', q.schedule = some q' := by
  unfold schedule
  rcases h.go with ⟨r, hr, he⟩ | ⟨he, p, hp, hpe⟩
  · rw [he]
    exact ⟨_, rfl⟩
  · rw [he, hpe]
    dsimp only
    split_ifs <;> exact ⟨_, rfl⟩

theorem schedule_wf (h : Ready q) (hs : q.schedule = some q') : Wf q' := by
  rcases schedule_cases h hs with ⟨r, hr, -, rfl⟩ | ⟨p, hp, -, hpe, ha, rfl⟩ |
    ⟨p, hp, -, hpe, -, rfl⟩
  · obtain ⟨m, hm, hpick⟩ := exists_pick hr
    exact { h.settleAll _ with
      running := ⟨m, hm, hpick⟩
      previous := ⟨r, hr, rfl⟩
      apart := fun he => (head_of_pick_self h.nodup hr he).trans he.symm }
  · obtain ⟨m, hm, hhead⟩ := exists_head hp
    exact { h with
      running := ⟨m, hm, hhead⟩
      previous := ⟨p, hp, hpe⟩
      apart := fun _ => rfl }
  · obtain ⟨m, hm, hpick⟩ := exists_pick hp
    refine { h.settleAll _ with
      running := ⟨m, hm, hpick⟩
      previous := ⟨p, hp, hpe⟩
      apart := fun he => ?_ }
    have he' : q.pick p = some p := he.trans hpe
    exact (head_of_pick_self h.nodup hp he').trans he'.symm

/-! ## The edits -/

theorem Sound.setProcess (h : Sound q) {t : Task} (hpid : t.pid = (q.process n).pid)
    (hppid : t.ppid = (q.process n).ppid) : Sound (q.setProcess n t) := by
  have hp : ∀ m, ((q.setProcess n t).process m).pid = (q.process m).pid := by
    intro m
    by_cases hm : m = n
    · subst hm
      simpa [TaskQueue.setProcess] using hpid
    · simp [TaskQueue.setProcess, hm]
  have hpp : ∀ m, ((q.setProcess n t).process m).ppid = (q.process m).ppid := by
    intro m
    by_cases hm : m = n
    · subst hm
      simpa [TaskQueue.setProcess] using hppid
    · simp [TaskQueue.setProcess, hm]
  exact ⟨h.nodup, h.lt_fresh, fun m hm => by rw [hp]; exact h.pid_lt m hm,
    fun m hm => by rw [hp, hpp]; exact h.ppid_ne m hm, h.one_lt⟩

theorem Sound.remove (h : Sound q) (n : ℕ) : Sound (q.remove n) where
  nodup := h.nodup.erase n
  lt_fresh := fun m hm => h.lt_fresh m (List.mem_of_mem_erase hm)
  pid_lt := fun m hm => h.pid_lt m (List.mem_of_mem_erase hm)
  ppid_ne := fun m hm => h.ppid_ne m (List.mem_of_mem_erase hm)
  one_lt := h.one_lt

theorem Sound.add (h : Sound q) {t : Task} (hpid : t.pid < q.PID) (hppid : t.ppid ≠ t.pid) :
    Sound (q.add t) := by
  have hfr : q.fresh ∉ q.nodes := fun hm => absurd (h.lt_fresh _ hm) (Nat.lt_irrefl _)
  have hold : ∀ m ∈ q.nodes, (q.add t).process m = q.process m := by
    intro m hm
    have hne : m ≠ q.fresh := by
      rintro rfl
      exact hfr hm
    simp [TaskQueue.add, hne]
  have hnew : (q.add t).process q.fresh = t := by simp [TaskQueue.add]
  have hcases : ∀ m ∈ (q.add t).nodes, m ∈ q.nodes ∨ m = q.fresh := by
    intro m hm
    simpa [TaskQueue.add] using hm
  refine ⟨?_, fun m hm => ?_, fun m hm => ?_, fun m hm => ?_, h.one_lt⟩
  · exact List.Nodup.append h.nodup (List.nodup_singleton _) (by simpa using hfr)
  · show m < q.fresh + 1
    rcases hcases m hm with hm | rfl
    · have := h.lt_fresh m hm
      omega
    · omega
  · rcases hcases m hm with hm | rfl
    · rw [hold m hm]
      exact h.pid_lt m hm
    · rw [hnew]
      exact hpid
  · rcases hcases m hm with hm | rfl
    · rw [hold m hm]
      exact h.ppid_ne m hm
    · rw [hnew]
      exact hppid

theorem Sound.setPID (h : Sound q) {n : ℕ} (hn : q.PID ≤ n) : Sound { q with PID := n } :=
  { h with
    pid_lt := fun m hm => Nat.lt_of_lt_of_le (h.pid_lt m hm) hn
    one_lt := Nat.lt_of_lt_of_le h.one_lt hn }

theorem Wf.setProcess (h : Wf q) {t : Task} (hpid : t.pid = (q.process n).pid)
    (hppid : t.ppid = (q.process n).ppid) : Wf (q.setProcess n t) :=
  { h.toSound.setProcess hpid hppid with
    running := h.running, previous := h.previous, apart := h.apart }

theorem Wf.setIsBg (h : Wf q) (b : ℕ) : Wf { q with isBg := b } := { h with }

theorem Wf.setPID (h : Wf q) {n : ℕ} (hn : q.PID ≤ n) : Wf { q with PID := n } :=
  { h.toSound.setPID hn with
    running := h.running, previous := h.previous, apart := h.apart }

theorem nodes_ne_nil (hr : ∃ r ∈ q.nodes, q.running = some r) : q.nodes ≠ [] := by
  rintro he
  obtain ⟨r, hr, -⟩ := hr
  simp [he] at hr

theorem Wf.add (h : Wf q) {t : Task} (hpid : t.pid < q.PID) (hppid : t.ppid ≠ t.pid) :
    Wf (q.add t) := by
  have hne := nodes_ne_nil h.running
  have hrun : (q.add t).running = q.running := by simp [TaskQueue.add, hne]
  have hhead : (q.add t).nodes.head? = q.nodes.head? := by
    cases hl : q.nodes with
    | nil => exact absurd hl hne
    | cons a l => simp [TaskQueue.add, hl]
  obtain ⟨r, hr, hre⟩ := h.running
  obtain ⟨p, hp, hpe⟩ := h.previous
  exact { h.toSound.add hpid hppid with
    running := ⟨r, List.mem_append_left _ hr, hrun.trans hre⟩
    previous := ⟨p, List.mem_append_left _ hp, hpe⟩
    apart := fun he => by rw [hhead, hrun]; exact h.apart (by rw [← hrun]; exact he) }

/-- A new task joins while the running one is gone. -/
theorem Ready.add (h : Ready q) (hr : q.running = none) {t : Task} (hpid : t.pid < q.PID)
    (hppid : t.ppid ≠ t.pid) : Ready (q.add t) := by
  rcases h.go with ⟨r, -, he⟩ | ⟨-, p, hp, hpe⟩
  · simp [hr] at he
  · have hne : q.nodes ≠ [] := by
      rintro he
      simp [he] at hp
    exact { h.toSound.add hpid hppid with
      go := Or.inr ⟨by simp [TaskQueue.add, hne, hr], p, List.mem_append_left _ hp, hpe⟩ }

theorem leave_cases (hl : q.leave = some q') :
    ∃ r, q.running = some r ∧ r ∈ q.nodes.tail ∧
      q' = { q.remove r with running := none, taskCount := q.taskCount - 1 } := by
  unfold leave at hl
  split at hl
  · cases hl
  · rename_i r hr
    split_ifs at hl with ht
    exact ⟨r, hr, ht, (Option.some.inj hl).symm⟩

theorem leave_fresh (hl : q.leave = some q') : q'.fresh = q.fresh := by
  obtain ⟨r, -, -, rfl⟩ := leave_cases hl
  rfl

theorem leave_process (hl : q.leave = some q') : q'.process = q.process := by
  obtain ⟨r, -, -, rfl⟩ := leave_cases hl
  rfl

/-- The running task leaves: it is not the head, so it is not `previous` either. -/
theorem leave_ready (h : Wf q) (hl : q.leave = some q') : Ready q' := by
  obtain ⟨r, hre, ht, rfl⟩ := leave_cases hl
  obtain ⟨p, hp, hpe⟩ := h.previous
  have hne : p ≠ r := by
    rintro rfl
    have := h.apart (hre.trans hpe.symm)
    exact Sched.head_notMem_tail h.nodup (this.trans hre) ht
  exact { h.toSound.remove r with
    go := Or.inr ⟨rfl, p, (List.mem_erase_of_ne hne).2 hp, hpe⟩ }

theorem leave_isSome (h : Wf q) (hr : q.running = some r) (ht : q.nodes.head? ≠ some r) :
    ∃ q', q.leave = some q' := by
  have hm : r ∈ q.nodes.tail := Sched.mem_tail_of_ne_head (h.mem_running hr) ht
  unfold leave
  rw [hr]
  exact ⟨_, if_pos hm⟩

theorem lookup_some {pid : ℕ} (h : q.lookup pid = some n) :
    n ∈ q.nodes ∧ (q.process n).pid = pid :=
  ⟨List.mem_of_find?_eq_some h, by simpa using List.find?_some h⟩

/-! ## What an operation does -/

/-- What the running task `r` does to the list up to its call of `schedule`, and whether it makes
the call. -/
inductive Edited (q : TaskQueue) (r : ℕ) : Op → TaskQueue → Bool → Prop
  | yield : Edited q r .yield q true
  | fork : Edited q r .fork (q.fork r) false
  | leave {op : Op} {q₁ : TaskQueue} (hop : op = .exec none ∨ op = .exit)
      (hl : q.leave = some q₁) : Edited q r op q₁ true
  | exec {name : List UInt8} {q₁ : TaskQueue}
      (hl : TaskQueue.leave { q with PID := q.PID - 1 + 1 } = some q₁) :
      Edited q r (.exec (some name))
        (q₁.add ⟨(q.process r).pid, (q.process r).ppid, name, 0, 0, 0, 0⟩) true
  | sleep {time : ℤ} : Edited q r (.sleep time false) (doze { q with isBg := 0 } r time) true
  | sleepBg {time : ℤ} : Edited q r (.sleep time true)
      (doze { q.setProcess r { q.process r with isBg := 1 } with isBg := 1 } r time) true
  | await {op : Op} (hop : op.Waits) (c : ℕ) : Edited q r op (q.await r c) true
  | goOn {op : Op} (hop : op.Waits) : Edited q r op q false
  -- the three exits of `sys_kill`, the last of them with or without such a task
  | killKernel {pid n : ℕ} (hpp : (q.process r).ppid ≠ pid) (hn : n ∈ q.nodes)
      (hpid : (q.process n).pid = pid) (hname : (q.process n).tname = kernel) :
      Edited q r (.kill pid) q true
  | killSelf {pid : ℕ} {q₁ : TaskQueue} (hpp : (q.process r).ppid ≠ pid) (hn : r ∈ q.nodes)
      (hpid : (q.process r).pid = pid) (hl : q.leave = some q₁) : Edited q r (.kill pid) q₁ true
  | kill {pid n : ℕ} (hn : n ∈ q.nodes) (hpid : (q.process n).pid = pid)
      (hother : (q.process r).ppid = pid ∨
        ∀ m ∈ q.nodes, (q.process m).pid = pid → (q.process m).tname ≠ kernel ∧ m ≠ r) :
      Edited q r (.kill pid) (q.remove n) true
  | killNone {pid : ℕ} (hnone : ∀ n ∈ q.nodes, (q.process n).pid ≠ pid) :
      Edited q r (.kill pid) q true
  | tick : Edited q r .tick q.tick false
  | pageFault {q₁ : TaskQueue} (hl : q.loadSbush.leave = some q₁) : Edited q r .pageFault q₁ true

theorem delete_edited {pid : ℕ} (hd : q.delete pid = some q')
    (hother : (q.process r).ppid = pid ∨
      ∀ m ∈ q.nodes, (q.process m).pid = pid → (q.process m).tname ≠ kernel ∧ m ≠ r) :
    Edited q r (.kill pid) q' true := by
  unfold delete at hd
  split at hd
  · rename_i hf
    obtain rfl := Option.some.inj hd
    exact .killNone fun n hn hpid => by simpa [hpid] using List.find?_eq_none.1 hf n hn
  · rename_i n hf
    split_ifs at hd
    obtain rfl := Option.some.inj hd
    obtain ⟨hn, hpid⟩ := lookup_some hf
    exact .kill hn hpid hother

theorem editKill_edited {pid : ℕ} (hk : q.editKill r pid = some q') :
    Edited q r (.kill pid) q' true := by
  unfold editKill at hk
  split_ifs at hk with hpp
  · exact delete_edited hk (Or.inl hpp)
  · split at hk
    · -- the loop has found the kernel or the caller
      rename_i n hf
      have hn := List.mem_of_find?_eq_some hf
      have hstop := List.find?_some hf
      simp only [Bool.and_eq_true, Bool.or_eq_true, beq_iff_eq] at hstop
      split_ifs at hk with hname
      · obtain rfl := Option.some.inj hk
        exact .killKernel hpp hn hstop.1 hname
      · obtain rfl := hstop.2.resolve_left hname
        exact .killSelf hpp hn hstop.1 hk
    · rename_i hf
      refine delete_edited hk (Or.inr fun n hn hpid => ?_)
      simpa [hpid] using List.find?_eq_none.1 hf n hn

theorem edit_cases {op : Op} {go : Bool} (he : q.edit r op = some (q', go)) :
    Edited q r op q' go := by
  have hwait : op.Waits → ∀ pid, q.editWait r pid = (q', go) → Edited q r op q' go := by
    intro hop pid hw
    unfold editWait at hw
    split at hw <;> obtain ⟨rfl, rfl⟩ := Prod.mk.inj hw
    · exact .await hop _
    · exact .goOn hop
  have hmap : ∀ {x : Option TaskQueue} {f : TaskQueue → TaskQueue},
      x.map (fun q => (f q, true)) = some (q', go) → ∃ q₁, x = some q₁ ∧ f q₁ = q' ∧ true = go := by
    intro x f hx
    obtain ⟨q₁, hl, hq⟩ := Option.map_eq_some_iff.1 hx
    exact ⟨q₁, hl, (Prod.mk.inj hq).1, (Prod.mk.inj hq).2⟩
  unfold edit at he
  split at he
  · obtain ⟨rfl, rfl⟩ := Prod.mk.inj (Option.some.inj he)
    exact .yield
  · obtain ⟨rfl, rfl⟩ := Prod.mk.inj (Option.some.inj he)
    exact .fork
  · obtain ⟨q₁, hl, rfl, rfl⟩ := hmap he
    exact .leave (Or.inl rfl) hl
  · obtain ⟨q₁, hl, rfl, rfl⟩ := hmap he
    exact .exec hl
  · obtain ⟨q₁, hl, rfl, rfl⟩ := hmap he
    exact .leave (Or.inr rfl) hl
  · obtain ⟨rfl, rfl⟩ := Prod.mk.inj (Option.some.inj he)
    exact .sleepBg
  · obtain ⟨rfl, rfl⟩ := Prod.mk.inj (Option.some.inj he)
    exact .sleep
  · exact hwait (Or.inl rfl) 0 (Option.some.inj he)
  · rename_i pid
    split_ifs at he
    · obtain ⟨rfl, rfl⟩ := Prod.mk.inj (Option.some.inj he)
      exact .goOn (Or.inr ⟨pid, rfl⟩)
    · exact hwait (Or.inr ⟨pid, rfl⟩) pid (Option.some.inj he)
  · obtain ⟨q₁, hk, rfl, rfl⟩ := hmap he
    exact editKill_edited hk
  · obtain ⟨rfl, rfl⟩ := Prod.mk.inj (Option.some.inj he)
    exact .tick
  · obtain ⟨q₁, hl, rfl, rfl⟩ := hmap he
    exact .pageFault hl

theorem tickTask_pid (t : Task) : (Sched.tickTask t).pid = t.pid := by
  unfold Sched.tickTask
  split_ifs <;> rfl

theorem tickTask_ppid (t : Task) : (Sched.tickTask t).ppid = t.ppid := by
  unfold Sched.tickTask
  split_ifs <;> rfl

theorem Wf.tick (h : Wf q) : Wf q.tick := by
  have hp : ∀ m, (q.tick.process m).pid = (q.process m).pid := by
    intro m
    simp only [TaskQueue.tick]
    split_ifs
    · exact tickTask_pid _
    · rfl
  have hpp : ∀ m, (q.tick.process m).ppid = (q.process m).ppid := by
    intro m
    simp only [TaskQueue.tick]
    split_ifs
    · exact tickTask_ppid _
    · rfl
  exact { h with
    pid_lt := fun m hm => by rw [hp]; exact h.pid_lt m hm
    ppid_ne := fun m hm => by rw [hp, hpp]; exact h.ppid_ne m hm }

theorem Wf.fork (h : Wf q) (hr : q.running = some r) : Wf (q.fork r) := by
  have hlt := h.pid_lt r (h.mem_running hr)
  exact (h.setPID (Nat.le_succ _)).add (Nat.lt_succ_self _) (by dsimp only; omega)

theorem Wf.loadSbush (h : Wf q) : Wf q.loadSbush :=
  (h.setPID (Nat.le_succ _)).add (Nat.lt_trans h.one_lt (Nat.lt_succ_self _)) (by decide)

theorem Wf.await (h : Wf q) (r c : ℕ) : Wf (q.await r c) := h.setProcess rfl rfl

theorem Wf.doze (h : Wf q) (r : ℕ) (time : ℤ) : Wf (q.doze r time) := h.setProcess rfl rfl

theorem loadSbush_running (h : Wf q) (hr : q.running = some r) :
    q.loadSbush.running = some r := by
  simp [loadSbush, add, nodes_ne_nil h.running, hr]

/-- Up to the call of `schedule` an operation keeps what the call needs, and one that does not
call it keeps everything. -/
theorem edit_wf (h : Wf q) (hr : q.running = some r) {op : Op} {go : Bool}
    (he : q.edit r op = some (q', go)) : if go then Ready q' else Wf q' := by
  have hmem := h.mem_running hr
  cases edit_cases he with
  | yield => exact h.ready
  | fork => exact h.fork hr
  | leave _ hl => exact leave_ready h hl
  | exec hl =>
    have hpid : q.PID ≤ q.PID - 1 + 1 := by omega
    have hready := leave_ready (h.setPID hpid) hl
    obtain ⟨r', -, -, rfl⟩ := leave_cases hl
    exact hready.add rfl (Nat.lt_of_lt_of_le (h.pid_lt r hmem) hpid) (h.ppid_ne r hmem)
  | sleep => exact ((h.setIsBg 0).doze _ _).ready
  | sleepBg =>
    exact (Wf.doze ((h.setProcess (n := r) (t := { q.process r with isBg := 1 }) rfl rfl).setIsBg 1)
      r _).ready
  | await _ c => exact (h.await r c).ready
  | goOn => exact h
  | killKernel => exact h.ready
  | killSelf _ _ _ hl => exact leave_ready h hl
  | @kill _ n hn hpid hother =>
    -- the running task stays
    have hrn : r ≠ n := by
      rintro rfl
      rcases hother with hpp | hall
      · exact h.ppid_ne r hn (hpp.trans hpid.symm)
      · exact (hall r hn hpid).2 rfl
    exact { h.toSound.remove n with
      go := Or.inl ⟨r, (List.mem_erase_of_ne hrn).2 hmem, hr⟩ }
  | killNone => exact h.ready
  | tick => exact h.tick
  | pageFault hl => exact leave_ready h.loadSbush hl

theorem editKill_ready (h : Wf q) (hr : q.running = some r) {pid : ℕ}
    (hk : q.editKill r pid = some q') : Ready q' := by
  have he : q.edit r (.kill pid) = some (q', true) := by
    simp only [edit, hk, Option.map_some]
  simpa using edit_wf h hr he

/-- `n` was in the list before, under its pid, and waits for what it waited for unless it is the
running task `r`. -/
def Kept (q : TaskQueue) (r : ℕ) (q' : TaskQueue) (n : ℕ) : Prop :=
  n ∈ q.nodes ∧ (q'.process n).pid = (q.process n).pid ∧
    (n ≠ r → (q'.process n).isWaiting = (q.process n).isWaiting)

theorem Kept.refl (hn : n ∈ q.nodes) : Kept q r q n := ⟨hn, rfl, fun _ => rfl⟩

theorem Kept.setProcess {q₁ : TaskQueue} (h : Kept q r q₁ n) {t : Task}
    (ht : t.pid = (q₁.process r).pid) : Kept q r (q₁.setProcess r t) n := by
  obtain ⟨hn, hp, hw⟩ := h
  by_cases hne : n = r
  · subst hne
    exact ⟨hn, by simpa [TaskQueue.setProcess, ht] using hp, fun h => absurd rfl h⟩
  · have he : (q₁.setProcess r t).process n = q₁.process n := by
      simp [TaskQueue.setProcess, hne]
    exact ⟨hn, by rw [he, hp], fun _ => by rw [he, hw hne]⟩

theorem Kept.setIsBg {q₁ : TaskQueue} (h : Kept q r q₁ n) (b : ℕ) :
    Kept q r { q₁ with isBg := b } n := h

theorem Kept.tick (hn : n ∈ q.nodes) : Kept q r q.tick n := by
  have ht : q.tick.process n = Sched.tickTask (q.process n) := if_pos hn
  refine ⟨hn, by rw [ht, tickTask_pid], fun _ => ?_⟩
  rw [ht]
  unfold Sched.tickTask
  split_ifs <;> rfl

theorem mem_leave (h : Wf q) (hr : q.running = some r) (hl : q.leave = some q')
    (hn : n ∈ q'.nodes) : n ∈ q.nodes ∧ n ≠ r ∧ q'.process = q.process := by
  obtain ⟨r', hr', -, rfl⟩ := leave_cases hl
  obtain rfl : r = r' := by simpa [hr] using hr'
  obtain ⟨hne, hn⟩ := (List.Nodup.mem_erase_iff h.nodup).1 hn
  exact ⟨hn, hne, rfl⟩

theorem Kept.leave (h : Wf q) (hr : q.running = some r) (hl : q.leave = some q')
    (hn : n ∈ q'.nodes) : Kept q r q' n ∧ n ≠ r := by
  obtain ⟨hm, hne, hp⟩ := mem_leave h hr hl hn
  exact ⟨⟨hm, by rw [hp], fun _ => by rw [hp]⟩, hne⟩

theorem mem_add {t : Task} (hn : n ∈ (q.add t).nodes) :
    (n ∈ q.nodes ∧ n ≠ q.fresh ∧ (q.add t).process n = q.process n) ∨
      (n = q.fresh ∧ (q.add t).process n = t) := by
  by_cases hne : n = q.fresh
  · exact Or.inr ⟨hne, by simp [TaskQueue.add, hne]⟩
  · refine Or.inl ⟨?_, hne, by simp [TaskQueue.add, hne]⟩
    simpa [TaskQueue.add, hne] using hn

/-- The tasks after an operation are tasks from before it and the new one, if there is one. -/
theorem edit_origin (h : Wf q) (hr : q.running = some r) {op : Op} {go : Bool}
    (he : q.edit r op = some (q', go)) (hn : n ∈ q'.nodes) :
    (Kept q r q' n ∧ (op.leaves = true → n ≠ r)) ∨
      (n = q.fresh ∧ q.born r op = some (q'.process n)) := by
  have hwaits : op.Waits → op.leaves = true → n ≠ r := by
    rintro (rfl | ⟨pid, rfl⟩) <;> exact nofun
  cases edit_cases he with
  | yield => exact Or.inl ⟨Kept.refl hn, nofun⟩
  | fork =>
    rcases mem_add hn with ⟨hm, -, hp⟩ | ⟨hf, hp⟩
    · exact Or.inl ⟨⟨hm, congrArg Task.pid hp, fun _ => congrArg Task.isWaiting hp⟩, nofun⟩
    · exact Or.inr ⟨hf, congrArg some hp.symm⟩
  | leave _ hl =>
    obtain ⟨hk, hne⟩ := Kept.leave h hr hl hn
    exact Or.inl ⟨hk, fun _ => hne⟩
  | exec hl =>
    rcases mem_add hn with ⟨hm, -, hp⟩ | ⟨hf, hp⟩
    · obtain ⟨hm, hne, hp₁⟩ := mem_leave (h.setPID (n := q.PID - 1 + 1) (by omega)) hr hl hm
      rw [hp₁] at hp
      exact Or.inl ⟨⟨hm, congrArg Task.pid hp, fun _ => congrArg Task.isWaiting hp⟩, fun _ => hne⟩
    · have hfresh := leave_fresh hl
      exact Or.inr ⟨hf.trans hfresh, congrArg some hp.symm⟩
  | sleep => exact Or.inl ⟨((Kept.refl (q := q) hn).setIsBg 0).setProcess rfl, nofun⟩
  | sleepBg =>
    have hbg :=
      (Kept.refl (q := q) (r := r) hn).setProcess (t := { q.process r with isBg := 1 }) rfl
    exact Or.inl ⟨(hbg.setIsBg 1).setProcess rfl, nofun⟩
  | await hop => exact Or.inl ⟨(Kept.refl (q := q) hn).setProcess rfl, hwaits hop⟩
  | goOn hop => exact Or.inl ⟨Kept.refl hn, hwaits hop⟩
  | killKernel => exact Or.inl ⟨Kept.refl hn, nofun⟩
  | killSelf _ _ _ hl => exact Or.inl ⟨(Kept.leave h hr hl hn).1, nofun⟩
  | kill => exact Or.inl ⟨⟨List.mem_of_mem_erase hn, rfl, fun _ => rfl⟩, nofun⟩
  | killNone => exact Or.inl ⟨Kept.refl hn, nofun⟩
  | tick => exact Or.inl ⟨Kept.tick hn, nofun⟩
  | pageFault hl =>
    obtain ⟨hm, hne, hp₁⟩ := mem_leave h.loadSbush (loadSbush_running h hr) hl hn
    rcases mem_add hm with ⟨hm, -, hp⟩ | ⟨hf, hp⟩
    · have hp : q'.process n = q.process n := by rw [hp₁]; exact hp
      exact Or.inl ⟨⟨hm, by rw [hp], fun _ => by rw [hp]⟩, fun _ => hne⟩
    · refine Or.inr ⟨hf, ?_⟩
      rw [hp₁]
      exact congrArg some hp.symm

/-- Nodes are never used again, and only `schedule` changes who runs. -/
theorem edit_frame (h : Wf q) {op : Op} {go : Bool} (he : q.edit r op = some (q', go)) :
    q.fresh ≤ q'.fresh ∧ (go = false → q'.running = q.running) := by
  cases edit_cases he with
  | yield | sleep | sleepBg | await | killKernel | kill | killNone =>
    exact ⟨Nat.le_refl _, nofun⟩
  | goOn | tick => exact ⟨Nat.le_refl _, fun _ => rfl⟩
  | fork => exact ⟨Nat.le_succ _, fun _ => by simp [fork, add, nodes_ne_nil h.running]⟩
  | leave _ hl => exact ⟨Nat.le_of_eq (leave_fresh hl).symm, nofun⟩
  | killSelf _ _ _ hl => exact ⟨Nat.le_of_eq (leave_fresh hl).symm, nofun⟩
  | exec hl =>
    have hfresh := leave_fresh hl
    exact ⟨hfresh ▸ Nat.le_succ _, nofun⟩
  | pageFault hl =>
    have hfresh := leave_fresh hl
    exact ⟨hfresh ▸ Nat.le_succ _, nofun⟩

theorem step_edit (hr : q.running = some r) {op : Op} (hs : q.step op = some q') :
    ∃ q₁ go, q.edit r op = some (q₁, go) ∧ (if go then q₁.schedule = some q' else q' = q₁) := by
  rw [step, hr, Option.bind_some] at hs
  obtain ⟨⟨q₁, go⟩, he, hs⟩ := Option.bind_eq_some_iff.1 hs
  refine ⟨q₁, go, he, ?_⟩
  cases go
  · simpa using hs.symm
  · simpa using hs

theorem step_cases {op : Op} (hs : q.step op = some q') :
    ∃ r q₁ go, q.running = some r ∧ q.edit r op = some (q₁, go) ∧
      (if go then q₁.schedule = some q' else q' = q₁) := by
  obtain ⟨r, hr, -⟩ := Option.bind_eq_some_iff.1 hs
  obtain ⟨q₁, go, he, hgo⟩ := step_edit hr hs
  exact ⟨r, q₁, go, hr, he, hgo⟩

theorem step_wf (h : Wf q) {op : Op} (hs : q.step op = some q') : Wf q' := by
  obtain ⟨r, q₁, go, hr, he, hgo⟩ := step_cases hs
  have := edit_wf h hr he
  cases go
  · obtain rfl := hgo
    exact this
  · exact schedule_wf this hgo

end TaskQueue

end Bgox
