import Bgox.Lib.Run
import Bgox.TaskQueue

/-!
# The linked list does what the list does

`Refines s q` says that the chain from `queue_head` is `q`'s list and the other globals agree.
Every function of `Sched` on the list keeps it, faulting exactly where its version on `TaskQueue` is
undefined.  `schedule` needs the task it goes on from to be in the list (`TaskQueue.CanGo`): a node
already unlinked still points into it.
-/

namespace Bgox

open Linked (Fault)
open Run (Sim)

/-- The pointers of `s` hold the list of `q`, and the rest is the same. -/
structure Refines (s : Sched) (q : TaskQueue) : Prop where
  chain : Linked.Chain s.next s.queueHead q.nodes
  lt_fresh : ∀ n ∈ q.nodes, n < q.fresh
  process : s.process = q.process
  running : s.runningTask = q.running
  previous : s.previous = q.previous
  taskCount : s.taskCount = q.taskCount
  PID : s.PID = q.PID
  isBg : s.isBg = q.isBg
  fresh : s.fresh = q.fresh

namespace Refines

variable {s : Sched} {q : TaskQueue}

theorem nodup (h : Refines s q) : q.nodes.Nodup := h.chain.nodup

theorem length_lt_fuel (h : Refines s q) : q.nodes.length < s.fuel := by
  have := h.chain.length_le h.lt_fresh
  rw [Sched.fuel, h.fresh]
  omega

theorem head (h : Refines s q) : s.queueHead = q.nodes.head? := h.chain.head?.symm

theorem find (h : Refines s q) (P : ℕ → Bool) :
    Linked.find s.next P s.fuel s.queueHead = .ok (q.nodes.find? P) :=
  Linked.find_eq P h.chain h.length_lt_fuel

theorem findPid (h : Refines s q) (pid : ℕ) :
    Linked.find s.next (fun n => (s.process n).pid == pid) s.fuel s.queueHead
      = .ok (q.lookup pid) := by
  rw [h.find, h.process]
  rfl

/-- The same change of the tasks on both sides. -/
theorem setProcess (h : Refines s q) (n : ℕ) (t : Task) :
    Refines (s.setProcess n t) (q.setProcess n t) :=
  { h with process := by simp only [Sched.setProcess, TaskQueue.setProcess, h.process] }

theorem setPID (h : Refines s q) (n : ℕ) : Refines { s with PID := n } { q with PID := n } :=
  { h with PID := rfl }

theorem setIsBg (h : Refines s q) (n : ℕ) : Refines { s with isBg := n } { q with isBg := n } :=
  { h with isBg := rfl }

end Refines

/-! ## The list edits -/

theorem exists_pred_of_mem_tail {l : List ℕ} {r : ℕ} (h : r ∈ l.tail) :
    ∃ xs a ys, l = xs ++ a :: r :: ys := by
  cases l with
  | nil => simp at h
  | cons c l =>
    obtain ⟨as, ys, rfl⟩ := List.append_of_mem h
    rcases List.eq_nil_or_concat as with rfl | ⟨bs, b, rfl⟩
    · exact ⟨[], c, ys, rfl⟩
    · exact ⟨c :: bs, b, ys, by simp⟩

theorem erase_of_nodup {xs ys : List ℕ} {a r : ℕ} (h : (xs ++ a :: r :: ys).Nodup) :
    (xs ++ a :: r :: ys).erase r = xs ++ a :: ys := by
  have hx : r ∉ xs ++ [a] := by
    intro hm
    rw [show xs ++ a :: r :: ys = (xs ++ [a]) ++ r :: ys by simp] at h
    exact (List.disjoint_of_nodup_append h) hm (by simp)
  rw [show xs ++ a :: r :: ys = (xs ++ [a]) ++ r :: ys by simp, List.erase_append_right _ hx]
  simp

namespace Sched

theorem unlink_eq (s : Sched) (temp del : ℕ) : s.unlink temp del = s.setNext temp (s.next del) := by
  unfold unlink
  split <;> rename_i h <;> rw [h]

variable {s : Sched} {q : TaskQueue}

/-- Finding the predecessor of a task behind the head and unlinking the task takes it out of the
list. -/
theorem pred_unlink (h : Refines s q) {n : ℕ} (hn : n ∈ q.nodes.tail) :
    ∃ temp, Linked.pred s.next (some n) s.fuel s.queueHead = .ok temp ∧
      Refines (s.unlink temp n) (q.remove n) := by
  obtain ⟨xs, a, ys, hl⟩ := exists_pred_of_mem_tail hn
  have hc := h.chain
  have hlen := h.length_lt_fuel
  have hnd := h.nodup
  rw [hl] at hc hlen hnd
  refine ⟨a, Linked.pred_eq hc hlen, ?_⟩
  have herase : q.nodes.erase n = xs ++ a :: ys := by rw [hl, erase_of_nodup hnd]
  rw [unlink_eq]
  refine { h with chain := ?_, lt_fresh := fun m hm => h.lt_fresh m (List.mem_of_mem_erase hm) }
  show Linked.Chain (Function.update s.next a (s.next n)) s.queueHead (q.nodes.erase n)
  rw [herase]
  exact hc.unlink

theorem deleteCurrFromTaskList_sim (h : Refines s q) :
    Sim Refines s.deleteCurrFromTaskList q.leave := by
  unfold deleteCurrFromTaskList TaskQueue.leave
  rw [h.running]
  rcases q.running with _ | r
  · rcases Linked.pred s.next none s.fuel s.queueHead with e | t <;> exact trivial
  · by_cases hr : r ∈ q.nodes.tail
    · obtain ⟨temp, hp, hu⟩ := pred_unlink h hr
      simp only [hp, hr, if_true]
      refine { hu with running := rfl, taskCount := ?_ }
      show (s.unlink temp r).taskCount - 1 = q.taskCount - 1
      rw [hu.taskCount]
      rfl
    · simp only [hr, if_false]
      rw [Linked.pred_null h.chain hr h.length_lt_fuel]
      trivial

theorem erase_head {l : List ℕ} {n : ℕ} (h : l.head? = some n) : l.erase n = l.tail := by
  cases l with
  | nil => simp at h
  | cons a l => simp at h; simp [h]

theorem mem_tail_of_ne_head {l : List ℕ} {n : ℕ} (hn : n ∈ l) (h : l.head? ≠ some n) :
    n ∈ l.tail := by
  cases l with
  | nil => simp at hn
  | cons a l =>
    simp only [List.head?_cons, ne_eq, Option.some.injEq] at h
    exact (List.mem_cons.1 hn).resolve_left (Ne.symm h)

theorem head_notMem_tail {l : List ℕ} {n : ℕ} (hd : l.Nodup) (h : l.head? = some n) :
    n ∉ l.tail := by
  cases l with
  | nil => simp
  | cons a l =>
    simp only [List.head?_cons, Option.some.injEq] at h
    subst h
    exact (List.nodup_cons.1 hd).1

theorem deleteFromTaskList_sim (h : Refines s q) (pid : ℕ) :
    Sim Refines (s.deleteFromTaskList pid) (q.delete pid) := by
  unfold deleteFromTaskList TaskQueue.delete
  rw [h.findPid, h.previous, h.head]
  rcases hf : q.lookup pid with _ | n
  · exact h
  have hn : n ∈ q.nodes := List.mem_of_find?_eq_some hf
  by_cases hp : some n = q.previous
  · simp only [hp, bind, Except.bind, if_true, true_and]
    by_cases hh : q.nodes.head? = some n
    · rw [← hp, if_pos hh, ← h.head,
        Linked.pred_null h.chain (head_notMem_tail h.nodup hh) h.length_lt_fuel]
      trivial
    · obtain ⟨temp, hpr, hu⟩ := pred_unlink h (mem_tail_of_ne_head hn hh)
      rw [← hp, if_neg hh, ← h.head, hpr]
      exact hu
  · simp only [hp, bind, Except.bind, if_false, false_and]
    by_cases hh : q.nodes.head? = some n
    · rw [if_pos hh.symm]
      have hc := h.chain
      refine { h with
        chain := ?_, lt_fresh := fun m hm => h.lt_fresh m (List.mem_of_mem_erase hm),
        previous := rfl }
      show Linked.Chain s.next (s.next n) (q.nodes.erase n)
      rw [erase_head hh]
      cases hl : q.nodes with
      | nil => simp [hl] at hh
      | cons a l =>
        rw [hl] at hh hc
        simp only [List.head?_cons, Option.some.injEq] at hh
        subst hh
        exact hc.2
    · obtain ⟨temp, hpr, hu⟩ := pred_unlink h (mem_tail_of_ne_head hn hh)
      rw [if_neg (Ne.symm hh), ← h.head, hpr]
      exact hu

theorem addToTaskList_sim (h : Refines s q) (t : Task) :
    Sim Refines (s.addToTaskList t) (some (q.add t)) := by
  unfold addToTaskList TaskQueue.add
  have hfr : q.fresh ∉ q.nodes := fun hm => absurd (h.lt_fresh _ hm) (Nat.lt_irrefl _)
  have hlt : ∀ n ∈ q.nodes ++ [q.fresh], n < q.fresh + 1 := by
    intro n hn
    rcases List.mem_append.1 hn with hn | hn
    · have := h.lt_fresh n hn
      omega
    · simp only [List.mem_singleton] at hn
      omega
  rcases List.eq_nil_or_concat q.nodes with hl | ⟨xs, a, hl⟩
  · have hh : s.queueHead = none := by rw [h.head, hl]; rfl
    rw [hh]
    refine ⟨?_, hlt, ?_, ?_, h.previous, ?_, h.PID, h.isBg, ?_⟩
    · simp [hl, newTask, Sched.setNext, Sched.setProcess, Linked.Chain, h.fresh]
    · simp [newTask, Sched.setNext, Sched.setProcess, h.process, h.fresh]
    · simp [hl, h.fresh]
    · simp [hl]
    · simp [newTask, h.fresh]
  · have hne : q.nodes ≠ [] := by simp [hl]
    have hc : Linked.Chain s.next s.queueHead (xs ++ [a]) := by
      rw [← List.concat_eq_append, ← hl]
      exact h.chain
    obtain ⟨b, hb⟩ : ∃ b, s.queueHead = some b := by
      rw [h.head]
      exact Option.ne_none_iff_exists'.1 (by simpa using hne)
    have hlast : Linked.last s.next s.fuel s.queueHead = .ok a :=
      Linked.last_eq hc (by rw [← List.concat_eq_append, ← hl]; exact h.length_lt_fuel)
    rw [hb] at hlast hc ⊢
    simp only [bind, Except.bind, hlast]
    refine ⟨?_, hlt, ?_, ?_, h.previous, ?_, h.PID, h.isBg, ?_⟩
    · have hfx : q.fresh ∉ xs ++ [a] := by
        rw [← List.concat_eq_append, ← hl]
        exact hfr
      have hcat := (hc.update_of_notMem (x := none) hfx).concat hfx (Function.update_self _ _ _)
      show Linked.Chain _ _ (q.nodes ++ [q.fresh])
      rw [show q.nodes ++ [q.fresh] = xs ++ [a, q.fresh] by simp [hl]]
      simpa [newTask, Sched.setNext, Sched.setProcess, h.fresh, hb] using hcat
    · simp [newTask, Sched.setNext, Sched.setProcess, h.process, h.fresh]
    · simp [hne, newTask, Sched.setNext, Sched.setProcess, h.running]
    · simp [hne, newTask, Sched.setNext, Sched.setProcess, h.taskCount]
    · simp [newTask, Sched.setNext, h.fresh]

end Sched

/-! ## schedule -/

namespace TaskQueue

variable {q : TaskQueue}

theorem after_eq {xs rest : List ℕ} {n : ℕ} (hd : q.nodes.Nodup)
    (hl : q.nodes = xs ++ n :: rest) : q.after n = rest := by
  have hx : ∀ m ∈ xs, m ≠ n := by
    rintro m hm rfl
    rw [hl] at hd
    exact (List.disjoint_of_nodup_append hd) hm (by simp)
  have hdrop : (xs ++ n :: rest).dropWhile (· ≠ n) = n :: rest := by
    rw [List.dropWhile_append_of_pos (by simpa using hx)]
    simp
  rw [after, hl, hdrop, List.tail_cons]

@[simp] theorem settleAll_nodes (ns : List ℕ) : (q.settleAll ns).nodes = q.nodes := rfl

@[simp] theorem settled_pid (n : ℕ) : (q.settled n).pid = (q.process n).pid := by
  unfold settled
  dsimp only
  split <;> rfl

@[simp] theorem settled_isSleeping (n : ℕ) :
    (q.settled n).isSleeping = (q.process n).isSleeping := by
  unfold settled
  dsimp only
  split <;> rfl

@[simp] theorem settleAll_pid (ns : List ℕ) (n : ℕ) :
    ((q.settleAll ns).process n).pid = (q.process n).pid := by
  unfold settleAll
  dsimp only
  split <;> simp

@[simp] theorem settleAll_isSleeping (ns : List ℕ) (n : ℕ) :
    ((q.settleAll ns).process n).isSleeping = (q.process n).isSleeping := by
  unfold settleAll
  dsimp only
  split <;> simp

theorem settleAll_process_of_notMem {ns : List ℕ} {n : ℕ} (h : n ∉ ns) :
    (q.settleAll ns).process n = q.process n := if_neg h

@[simp] theorem settleAll_lookup (ns : List ℕ) (pid : ℕ) :
    (q.settleAll ns).lookup pid = q.lookup pid := by
  simp only [lookup, settleAll_pid, settleAll_nodes]

/-- Settling changes no pid and wakes nobody, so it does not matter when a child is looked up. -/
@[simp] theorem settleAll_childDone (ns : List ℕ) (pid : ℕ) :
    (q.settleAll ns).childDone pid = q.childDone pid := by
  simp only [childDone, settleAll_lookup, settleAll_isSleeping]

theorem settleAll_settled {ns : List ℕ} {n : ℕ} (h : n ∉ ns) :
    (q.settleAll ns).settled n = q.settled n := by
  simp only [settled, settleAll_process_of_notMem h, settleAll_childDone]

theorem settleAll_concat (ns : List ℕ) {n : ℕ} (h : n ∉ ns) :
    q.settleAll (ns ++ [n]) = (q.settleAll ns).setProcess n (q.settled n) := by
  have hp : (q.settleAll (ns ++ [n])).process
      = Function.update (q.settleAll ns).process n (q.settled n) := by
    funext m
    by_cases hm : m = n
    · subst hm
      simp [settleAll]
    · simp [settleAll, hm]
  exact congrArg (fun f => { q with process := f }) hp

theorem settleAll_nil : q.settleAll [] = q := by
  simp [settleAll]

/-- The task `schedule` goes on from is in the list. -/
def CanGo (q : TaskQueue) : Prop :=
  match q.running with
  | some r => r ∈ q.nodes
  | none => ∀ p, q.previous = some p → p ∈ q.nodes

end TaskQueue

namespace Sched

variable {s : Sched} {q : TaskQueue}

theorem isChildDone_eq (h : Refines s q) (pid : ℕ) :
    s.isChildDone pid = .ok (q.childDone pid) := by
  unfold isChildDone TaskQueue.childDone
  rw [h.findPid]
  rcases q.lookup pid with _ | n
  · rfl
  · rw [h.process]
    rfl

theorem settle_eq (h : Refines s q) (n : ℕ) :
    s.settle n = .ok (s.setProcess n (q.settled n)) := by
  have hself : s.setProcess n (q.process n) = s := by
    simp [Sched.setProcess, ← h.process]
  unfold settle TaskQueue.settled
  rw [h.process]
  by_cases hw : 0 < (q.process n).isWaiting
  · simp only [hw, if_true, true_and, isChildDone_eq h]
    rcases q.childDone (q.process n).isWaiting
    · simp [hself, bind, Except.bind, pure, Except.pure]
    · simp [bind, Except.bind, pure, Except.pure]
  · simp [hw, hself, pure, Except.pure]

/-- The scan settles the tasks it passes and stops at the last of them. -/
theorem scan_sim : ∀ (rest : List ℕ) {fuel : ℕ} {s : Sched} {ps xs : List ℕ} {temp : ℕ},
    Refines s (q.settleAll ps) → q.nodes = xs ++ temp :: rest → (∀ n ∈ temp :: rest, n ∉ ps) →
    rest.length < fuel →
    ∃ s₁ t s₂, scan fuel s temp = .ok (s₁, t) ∧ s₁.settle t = .ok s₂ ∧
      Refines s₂ (q.settleAll (ps ++ temp :: rest.takeWhile q.blockedAt)) ∧
      s₂.next t = (rest.dropWhile q.blockedAt).head?
  | rest, 0, _, _, _, _, _, _, _, hf => by omega
  | [], fuel + 1, s, ps, xs, temp, h, hl, hps, _ => by
    have hnext : s.next temp = none := by
      have hc := h.chain
      rw [TaskQueue.settleAll_nodes, hl] at hc
      exact hc.next_eq
    refine ⟨s, temp, _, by simp [scan, hnext], settle_eq h temp, ?_, hnext⟩
    rw [TaskQueue.settleAll_settled (hps temp (by simp))]
    have := h.setProcess temp (q.settled temp)
    rw [← TaskQueue.settleAll_concat ps (hps temp (by simp))] at this
    simpa using this
  | n :: rest, fuel + 1, s, ps, xs, temp, h, hl, hps, hf => by
    have hnext : s.next temp = some n := by
      have hc := h.chain
      rw [TaskQueue.settleAll_nodes, hl] at hc
      exact hc.next_eq
    have hproc : s.process n = q.process n := by
      rw [h.process, TaskQueue.settleAll_process_of_notMem (hps n (by simp))]
    have htemp : temp ∉ ps := hps temp (by simp)
    have hset := h.setProcess temp (q.settled temp)
    rw [← TaskQueue.settleAll_concat ps htemp] at hset
    have hs : s.settle temp = .ok (s.setProcess temp (q.settled temp)) := by
      rw [settle_eq h, TaskQueue.settleAll_settled htemp]
    by_cases hb : q.blockedAt n
    · have hb' : (s.process n).blocked = true := by rw [hproc]; exact hb
      have hdisj : ∀ m ∈ n :: rest, m ∉ ps ++ [temp] := by
        intro m hm hm'
        rcases List.mem_append.1 hm' with hm' | hm'
        · exact hps m (List.mem_cons_of_mem _ hm) hm'
        · rw [List.mem_singleton] at hm'
          subst hm'
          have hd := h.nodup
          rw [TaskQueue.settleAll_nodes, hl] at hd
          exact (List.nodup_cons.1 (List.nodup_append.1 hd).2.1).1 hm
      have hl' : q.nodes = (xs ++ [temp]) ++ n :: rest := by simpa using hl
      have hf' : rest.length < fuel := by simpa using hf
      obtain ⟨s₁, t, s₂, h1, h2, h3, h4⟩ := scan_sim rest hset hl' hdisj hf'
      refine ⟨s₁, t, s₂, ?_, h2, ?_, ?_⟩
      · simp [scan, hnext, hb', hs, bind, Except.bind, h1]
      · simpa [hb] using h3
      · simpa [hb] using h4
    · have hb' : (s.process n).blocked = false := by
        rw [hproc]
        exact Bool.eq_false_iff.2 hb
      refine ⟨s, temp, _, by simp [scan, hnext, hb'], hs, ?_, ?_⟩
      · simpa [hb] using hset
      · show s.next temp = _
        simp [hnext, hb]

/-- From a task of the list the scan passes `passed`, and `pick` takes what `TaskQueue.pick`
takes. -/
theorem scan_pick (h : Refines s q) {n : ℕ} (hn : n ∈ q.nodes) :
    ∃ s₁ t s₂, scan s.fuel s n = .ok (s₁, t) ∧ s₁.settle t = .ok s₂ ∧
      Refines s₂ (q.settleAll (q.passed n)) ∧ s₂.pick t = q.pick n := by
  obtain ⟨xs, rest, hl⟩ := List.append_of_mem hn
  have haft : q.after n = rest := TaskQueue.after_eq h.nodup hl
  have hlen : rest.length < s.fuel := by
    have := h.length_lt_fuel
    rw [hl] at this
    simp only [List.length_append, List.length_cons] at this
    omega
  have h0 : Refines s (q.settleAll []) := by
    rw [TaskQueue.settleAll_nil]
    exact h
  obtain ⟨s₁, t, s₂, h1, h2, h3, h4⟩ := scan_sim rest h0 hl (by simp) hlen
  refine ⟨s₁, t, s₂, h1, h2, ?_, ?_⟩
  · rw [TaskQueue.passed, haft]
    simpa using h3
  · unfold pick TaskQueue.pick
    rw [h4, haft, h3.head, TaskQueue.settleAll_nodes]
    rcases (rest.dropWhile q.blockedAt).head? with _ | m <;> rfl

theorem switchTo_sim {r p : ℕ} (h : Refines s q) (hr : q.running = some r)
    (hp : q.previous = some p) : Sim Refines s.switchTo (some q) := by
  have : s.switchTo = .ok s := by
    simp [switchTo, h.running, hr, h.previous, hp, deref, bind, Except.bind, pure, Except.pure]
  rw [this]
  exact h

theorem schedule_sim (h : Refines s q) (hgo : q.CanGo) : Sim Refines s.schedule q.schedule := by
  unfold schedule TaskQueue.schedule
  have hhead : ∀ n ∈ q.nodes, ∃ m, q.nodes.head? = some m := by
    intro n hn
    cases hl : q.nodes with
    | nil => simp [hl] at hn
    | cons m l => exact ⟨m, rfl⟩
  have hpick : ∀ n ∈ q.nodes, ∃ m, q.pick n = some m := by
    intro n hn
    obtain ⟨m, hm⟩ := hhead n hn
    unfold TaskQueue.pick
    rcases ((q.after n).dropWhile q.blockedAt).head? with _ | k
    · exact ⟨m, hm⟩
    · exact ⟨k, rfl⟩
  rw [h.running]
  unfold TaskQueue.CanGo at hgo
  rcases hr : q.running with _ | r
  · rw [hr] at hgo
    rcases hp : q.previous with _ | p
    · rw [h.previous, hp]
      exact trivial
    · have hmem := hgo p hp
      obtain ⟨xs, rest, hl⟩ := List.append_of_mem hmem
      have hnext : s.next p = (q.after p).head? := by
        have hc := h.chain
        rw [TaskQueue.after_eq h.nodup hl]
        rw [hl] at hc
        exact hc.next_eq
      have hderef : deref s.previous = .ok p := by rw [h.previous, hp]; rfl
      simp only [hderef, bind, Except.bind]
      rcases ha : q.after p with _ | ⟨m, l⟩
      · rw [ha] at hnext
        obtain ⟨b, hb⟩ := hhead p hmem
        simp only [hnext, List.head?_nil, if_true]
        exact switchTo_sim { h with running := h.head, previous := h.previous.trans hp } hb rfl
      · rw [ha] at hnext
        obtain ⟨s₁, t, s₂, h1, h2, h3, h4⟩ := scan_pick h hmem
        obtain ⟨b, hb⟩ := hpick p hmem
        simp only [hnext, List.head?_cons, h1, h2, reduceCtorEq, if_false]
        exact switchTo_sim { h3 with running := h4 } hb hp
  · rw [hr] at hgo
    obtain ⟨s₁, t, s₂, h1, h2, h3, h4⟩ := scan_pick h hgo
    obtain ⟨b, hb⟩ := hpick r hgo
    simp only [bind, Except.bind, h1, h2]
    exact switchTo_sim { h3 with running := h4, previous := rfl } hb rfl

end Sched

end Bgox
