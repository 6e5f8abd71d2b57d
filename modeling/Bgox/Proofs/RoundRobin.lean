import Mathlib.Data.List.TakeWhile
import Bgox.Proofs.TaskRun

/-!
# One round of `schedule`

If every task that is selected gives up the processor at once, the scans of `schedule` take over
from one another: each starts at the task the last one stopped at.  Between two of them the tasks
before the running one have been settled and those behind it are as they were (`TaskQueue.midway`),
so nothing a scan does changes whom a later one selects.  The round ends when a scan comes to the
end of the list and goes back to the head (`round_robin`).
-/

namespace Bgox

open Linked (Fault)

namespace TaskQueue

variable {q : TaskQueue}

theorem settleAll_append {ns ms : List ℕ} (h : ∀ n ∈ ms, n ∉ ns) :
    (q.settleAll ns).settleAll ms = q.settleAll (ns ++ ms) := by
  have hp : ((q.settleAll ns).settleAll ms).process = (q.settleAll (ns ++ ms)).process := by
    funext n
    by_cases hm : n ∈ ms
    · have hset := settleAll_settled (q := q) (h n hm)
      simpa [settleAll, hm] using hset
    · simp [settleAll, hm]
  exact congrArg (fun f => { q with process := f }) hp

/-- The tasks `ns` have been settled, `r` runs, and `p` ran before. -/
def midway (q : TaskQueue) (ns : List ℕ) (r : ℕ) (p : Option ℕ) : TaskQueue :=
  { q.settleAll ns with running := some r, previous := p }

/-- The tasks of `rest` that are ready, in the order of the list. -/
def turns (q : TaskQueue) (rest : List ℕ) : List ℕ := rest.filter fun n => !q.blockedAt n

theorem turns_append_of_blocked {bs rest : List ℕ} (hb : ∀ n ∈ bs, q.blockedAt n = true) :
    q.turns (bs ++ rest) = q.turns rest := by
  have hnil : bs.filter (fun n => !q.blockedAt n) = [] := by
    simpa [List.filter_eq_nil_iff] using hb
  rw [turns, List.filter_append, hnil]
  rfl

theorem turns_cons_of_ready {m : ℕ} {rest : List ℕ} (hm : q.blockedAt m = false) :
    q.turns (m :: rest) = m :: q.turns rest := by
  simp [turns, hm]

/-- The blocked tasks a scan passes, and the rest. -/
theorem exists_split (q : TaskQueue) (l : List ℕ) :
    ∃ bs rest, l = bs ++ rest ∧ (∀ n ∈ bs, q.blockedAt n = true) ∧
      ∀ m, rest.head? = some m → q.blockedAt m = false := by
  refine ⟨l.takeWhile q.blockedAt, l.dropWhile q.blockedAt,
    List.takeWhile_append_dropWhile.symm, fun n hn => List.mem_takeWhile_imp hn, fun m hm => ?_⟩
  have hnot := List.head?_dropWhile_not q.blockedAt l
  rw [hm] at hnot
  simpa using hnot

/-- A scan stops where the blocked tasks end. -/
theorem takeWhile_dropWhile_append {f : ℕ → Bool} {bs rest : List ℕ} (hb : ∀ n ∈ bs, f n = true)
    (hstop : ∀ m, rest.head? = some m → f m = false) :
    (bs ++ rest).takeWhile f = bs ∧ (bs ++ rest).dropWhile f = rest := by
  rw [List.takeWhile_append_of_pos hb, List.dropWhile_append_of_pos hb]
  cases rest with
  | nil => simp
  | cons m rest => simp [hstop m rfl]

/-- A call of `schedule` by the task between the settled ones and the others: it passes the blocked
tasks `bs`. -/
theorem schedule_midway {xs bs rest : List ℕ} {r m : ℕ} {p : Option ℕ} (hd : q.nodes.Nodup)
    (hl : q.nodes = xs ++ r :: (bs ++ rest)) (hb : ∀ n ∈ bs, q.blockedAt n = true)
    (hstop : ∀ m, rest.head? = some m → q.blockedAt m = false)
    (hm : rest.head?.or q.nodes.head? = some m) :
    (q.midway xs r p).schedule = some (q.midway (xs ++ r :: bs) m (some r)) := by
  have hxs : ∀ n ∈ r :: (bs ++ rest), n ∉ xs := by
    intro n hn hx
    rw [hl] at hd
    exact List.disjoint_of_nodup_append hd hx hn
  have hblocked : ∀ n ∈ bs ++ rest, (q.midway xs r p).blockedAt n = q.blockedAt n := by
    intro n hn
    simp only [blockedAt, midway, settleAll_process_of_notMem (hxs n (List.mem_cons_of_mem _ hn))]
  obtain ⟨htake, hdrop⟩ := takeWhile_dropWhile_append (f := (q.midway xs r p).blockedAt)
    (fun n hn => (hblocked n (List.mem_append_left _ hn)).trans (hb n hn))
    (fun n hn => (hblocked n (List.mem_append_right _ (List.mem_of_mem_head? hn))).trans
      (hstop n hn))
  have hafter : (q.midway xs r p).after r = bs ++ rest := after_eq hd hl
  have hpick : (q.midway xs r p).pick r = some m := by
    rw [pick, hafter, hdrop]
    exact hm
  have hpassed : (q.midway xs r p).passed r = r :: bs := by rw [passed, hafter, htake]
  have hsettle : (q.settleAll xs).settleAll (r :: bs) = q.settleAll (xs ++ r :: bs) :=
    settleAll_append fun n hn =>
      hxs n (List.mem_cons.2 ((List.mem_cons.1 hn).imp_right (List.mem_append_left _)))
  show some { (q.midway xs r p).settleAll ((q.midway xs r p).passed r) with
    previous := some r, running := (q.midway xs r p).pick r } = _
  rw [hpassed, hpick]
  simp only [midway, ← hsettle]
  rfl

end TaskQueue

namespace Sched

variable {s s' : Sched} {q : TaskQueue}

/-! ## What `schedule` does not touch -/

theorem settle_frame {n : ℕ} (h : s.settle n = .ok s') : ∃ f, s' = { s with process := f } := by
  unfold settle at h
  dsimp only at h
  split_ifs at h
  · obtain ⟨b, -, h⟩ := Run.bind_eq_ok.1 h
    split_ifs at h <;> obtain rfl := Except.ok.inj h <;> exact ⟨_, rfl⟩
  · obtain rfl := Except.ok.inj h
    exact ⟨_, rfl⟩

theorem scan_frame : ∀ (fuel : ℕ) {s s' : Sched} {n t : ℕ}, scan fuel s n = .ok (s', t) →
    ∃ f, s' = { s with process := f }
  | 0, _, _, _, _, h => by cases h
  | fuel + 1, s, s', n, t, h => by
    unfold scan at h
    split at h
    · obtain ⟨rfl, rfl⟩ := Prod.mk.inj (Except.ok.inj h)
      exact ⟨_, rfl⟩
    · split_ifs at h
      · obtain ⟨s₁, hs₁, h⟩ := Run.bind_eq_ok.1 h
        obtain ⟨f, rfl⟩ := settle_frame hs₁
        obtain ⟨g, rfl⟩ := scan_frame fuel h
        exact ⟨g, rfl⟩
      · obtain ⟨rfl, rfl⟩ := Prod.mk.inj (Except.ok.inj h)
        exact ⟨_, rfl⟩

theorem switchTo_eq (h : s.switchTo = .ok s') : s' = s := by
  obtain ⟨_, -, h⟩ := Run.bind_eq_ok.1 h
  obtain ⟨_, -, h⟩ := Run.bind_eq_ok.1 h
  exact (Except.ok.inj h).symm

theorem schedule_touches (h : s.schedule = .ok s') :
    ∃ f r p, s' = { s with process := f, runningTask := r, previous := p } := by
  unfold schedule at h
  split at h
  · obtain ⟨p, -, h⟩ := Run.bind_eq_ok.1 h
    split at h
    · obtain rfl := switchTo_eq h
      exact ⟨_, _, _, rfl⟩
    · obtain ⟨⟨s₁, t⟩, hs₁, h⟩ := Run.bind_eq_ok.1 h
      obtain ⟨s₂, hs₂, h⟩ := Run.bind_eq_ok.1 h
      obtain ⟨f, rfl⟩ := scan_frame _ hs₁
      obtain ⟨g, rfl⟩ := settle_frame hs₂
      obtain rfl := switchTo_eq h
      exact ⟨_, _, _, rfl⟩
  · obtain ⟨⟨s₁, t⟩, hs₁, h⟩ := Run.bind_eq_ok.1 h
    obtain ⟨s₂, hs₂, h⟩ := Run.bind_eq_ok.1 h
    obtain ⟨f, rfl⟩ := scan_frame _ hs₁
    obtain ⟨g, rfl⟩ := settle_frame hs₂
    obtain rfl := switchTo_eq h
    exact ⟨_, _, _, rfl⟩

/-! ## The round -/

theorem run_yield_succ {s₁ : Sched} (h : s.schedule = .ok s₁) (k : ℕ) :
    s.run (List.replicate (k + 1) .yield) = s₁.run (List.replicate k .yield) := by
  rw [run, List.replicate_succ, List.foldlM_cons]
  show s.schedule >>= _ = _
  rw [h]
  rfl

theorem yields_touch : ∀ (k : ℕ) {s s' : Sched}, s.run (List.replicate k .yield) = .ok s' →
    ∃ f r p, s' = { s with process := f, runningTask := r, previous := p }
  | 0, s, s', h => by
    obtain rfl := Except.ok.inj h
    exact ⟨_, _, _, rfl⟩
  | k + 1, s, s', h => by
    rcases hs : s.schedule with e | s₁
    · have herr : s.run (List.replicate (k + 1) .yield) = .error e := by
        rw [run, List.replicate_succ, List.foldlM_cons]
        show s.schedule >>= _ = _
        rw [hs]
        rfl
      rw [herr] at h
      cases h
    · rw [run_yield_succ hs] at h
      obtain ⟨f, r, p, rfl⟩ := schedule_touches hs
      obtain ⟨f', r', p', rfl⟩ := yields_touch k h
      exact ⟨f', r', p', rfl⟩

/-- From a task on: the ready tasks behind it are selected in turn, and then the head, with every
task of the list settled. -/
theorem yields_pass {h : ℕ} (hd : q.nodes.Nodup) (hhead : q.nodes.head? = some h) (rest : List ℕ)
    {xs : List ℕ} {r : ℕ} {p : Option ℕ} {s : Sched} (hs : Refines s (q.midway xs r p))
    (hl : q.nodes = xs ++ r :: rest) :
    (∀ k ≤ (q.turns rest).length, ∃ s', s.run (List.replicate k .yield) = .ok s' ∧
      s'.runningTask = (r :: q.turns rest)[k]?) ∧
    ∃ s', s.run (List.replicate ((q.turns rest).length + 1) .yield) = .ok s' ∧
      Refines s' (q.midway q.nodes h ((r :: q.turns rest).getLast?)) := by
  induction hn : rest.length using Nat.strongRecOn generalizing rest xs r p s with
  | _ n ih =>
    obtain ⟨bs, tl, hrest, hb, hstop⟩ := q.exists_split rest
    have hgo : (q.midway xs r p).CanGo := by
      show r ∈ q.nodes
      simp [hl]
    rw [hrest] at hl ⊢
    rw [TaskQueue.turns_append_of_blocked hb]
    have hnow : ∃ s', s.run (List.replicate 0 .yield) = .ok s' ∧ s'.runningTask = some r :=
      ⟨s, rfl, hs.running⟩
    cases tl with
    | nil =>
      -- the scan comes to the end of the list
      obtain ⟨s₁, hs₁, hR⟩ := (schedule_sim hs hgo).of_some
        (TaskQueue.schedule_midway hd hl hb hstop hhead)
      refine ⟨fun k hk => ?_, s₁, run_yield_succ hs₁ 0, ?_⟩
      · obtain rfl : k = 0 := by simpa [TaskQueue.turns] using hk
        exact hnow
      · rw [List.append_nil] at hl
        rw [← hl] at hR
        exact hR
    | cons m tl =>
      obtain ⟨s₁, hs₁, hR⟩ := (schedule_sim hs hgo).of_some
        (TaskQueue.schedule_midway hd hl hb hstop rfl)
      rw [TaskQueue.turns_cons_of_ready (hstop m rfl)]
      obtain ⟨hturn, s', hs', hR'⟩ := ih tl.length
        (by rw [← hn, hrest]; simp only [List.length_append, List.length_cons]; omega)
        tl hR (by simpa using hl) rfl
      refine ⟨fun k hk => ?_, s', ?_, ?_⟩
      · rcases k with _ | k
        · exact hnow
        · rw [run_yield_succ hs₁]
          exact hturn k (by simpa using hk)
      · rw [List.length_cons, run_yield_succ hs₁]
        exact hs'
      · simpa using hR'

/-- The list the pointers hold. -/
def queue (s : Sched) (nodes : List ℕ) : TaskQueue where
  nodes := nodes
  process := s.process
  running := s.runningTask
  previous := s.previous
  taskCount := s.taskCount
  PID := s.PID
  isBg := s.isBg
  fresh := s.fresh

theorem queue_refines {l : List ℕ} (hc : Linked.Chain s.next s.queueHead l)
    (hlt : ∀ n ∈ l, n < s.fresh) : Refines s (s.queue l) :=
  ⟨hc, hlt, rfl, rfl, rfl, rfl, rfl, rfl, rfl⟩

/-- The head runs.  If every task that is selected calls `schedule` at once, the ready
tasks behind the head are selected one after the other, each once and in the order of the list, and
then the head; at the end every task of the list whose awaited child is done waits no longer, and
nothing else but `previous` has changed. -/
theorem round_robin {h : ℕ} {l : List ℕ} (hc : Linked.Chain s.next s.queueHead (h :: l))
    (hlt : ∀ n ∈ h :: l, n < s.fresh) (hr : s.runningTask = some h) :
    ∃ turns, turns = l.filter (fun n =>
        decide ((s.process n).isSleeping = 0 ∧ (s.process n).isWaiting = 0)) ∧
      (h :: turns).Nodup ∧
      (∀ k ≤ turns.length, ∃ s', s.run (List.replicate k .yield) = .ok s' ∧
        s'.runningTask = (h :: turns)[k]?) ∧
      s.run (List.replicate (turns.length + 1) .yield) = .ok
        { s with
          previous := (h :: turns).getLast?
          process := fun n =>
            if n ∈ h :: l ∧ 0 < (s.process n).isWaiting ∧
              s.isChildDone (s.process n).isWaiting = .ok true
            then { s.process n with isWaiting := 0 } else s.process n } := by
  have hq := queue_refines hc hlt
  have hstart : Refines s ((s.queue (h :: l)).midway [] h s.previous) := by
    simp only [TaskQueue.midway, TaskQueue.settleAll_nil]
    exact { hq with running := hr }
  have hturns : l.filter (fun n =>
      decide ((s.process n).isSleeping = 0 ∧ (s.process n).isWaiting = 0)) =
      (s.queue (h :: l)).turns l := by
    refine List.filter_congr fun n _ => ?_
    rw [Bool.eq_iff_iff, Bool.not_eq_true', decide_eq_true_eq]
    exact Task.blocked_eq_false.symm
  obtain ⟨hturn, s', hs', hR⟩ := yields_pass hq.nodup rfl l hstart rfl
  refine ⟨_, rfl, hq.nodup.sublist (List.filter_sublist.cons_cons h), ?_, ?_⟩
  · rw [hturns]
    exact hturn
  · rw [hturns, hs']
    obtain ⟨f, r, p, rfl⟩ := yields_touch _ hs'
    obtain rfl : r = some h := hR.running
    obtain rfl : p = (h :: (s.queue (h :: l)).turns l).getLast? := hR.previous
    have hf : f = fun n => if n ∈ h :: l ∧ 0 < (s.process n).isWaiting ∧
        s.isChildDone (s.process n).isWaiting = .ok true
        then { s.process n with isWaiting := 0 } else s.process n := by
      refine hR.process.trans (funext fun n => ?_)
      rw [isChildDone_eq hq]
      by_cases hn : n ∈ h :: l
      · simp only [hn, true_and, Except.ok.injEq]
        exact if_pos hn
      · simp only [hn, false_and, if_false]
        exact if_neg hn
    rw [hf, ← hr]

/-- Behind the boot task stand the shell, a child that sleeps and another that does not. -/
theorem round_robin_four :
    ∃ s s', boot.run [.fork, .yield, .sleep 5 false, .yield, .fork, .yield, .yield] = .ok s ∧
      Linked.Chain s.next s.queueHead [0, 1, 2, 3] ∧
      s.run (List.replicate 3 .yield) = .ok s' ∧ s'.runningTask = some 0 := by
  let s := (boot.run [.fork, .yield, .sleep 5 false, .yield, .fork, .yield, .yield]).toOption.getD
    empty
  obtain ⟨turns, hturns, -, -, hround⟩ := round_robin (s := s) (h := 0) (l := [1, 2, 3])
    ⟨rfl, rfl, rfl, rfl, rfl⟩ (by decide) rfl
  obtain rfl : turns = [1, 3] := hturns.trans (by decide)
  exact ⟨s, _, rfl, ⟨rfl, rfl, rfl, rfl, rfl⟩, hround, rfl⟩

end Sched

end Bgox
