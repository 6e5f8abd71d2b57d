import Bgox.Lib.Round
import Bgox.Proofs.Sleep

/-!
# No ready task is passed over

`schedule` goes on from the task that gives up the processor, and from `previous` if that task has
left the list.  On the way round the list from there to a task `P` that is ready, the task it
selects comes before `P` (`pick_dist`).  So the way from `previous` to `P` gets shorter with every
call, except by the new tasks, which join the list at its end: `TaskQueue.Within`.  That bounds the
number of calls before `P` is selected (`selected_within`).

The new tasks are not negligible: children that fork in their turn keep the processor among
themselves (`fork_starves`).
-/

namespace Bgox

open Round (dist dist_add dist_append_le dist_append_lt dist_erase_le dist_erase_lt dist_head_lt
  dist_le dist_lt_of_notMem dist_pos dist_self)
open Run (Reach Sim)

/-- The operations that put a task in the list. -/
def Op.adds : Op → Bool
  | .fork | .exec (some _) | .pageFault => true
  | _ => false

namespace TaskQueue

variable {q q₁ q' : TaskQueue} {r n m p P d : ℕ}

/-- The task that is selected comes before any other ready task. -/
theorem pick_dist (hd : q.nodes.Nodup) (hn : n ∈ q.nodes) (hP : P ∈ q.nodes)
    (hb : q.blockedAt P = false) (hpick : q.pick n = some m) (hne : P ≠ m) :
    dist q.nodes n m < dist q.nodes n P := by
  obtain ⟨xs, rest, hl⟩ := List.append_of_mem hn
  have hafter := after_eq hd hl
  have hpassed : P ∉ (q.after n).takeWhile q.blockedAt := fun h => by
    have hblocked := List.mem_takeWhile_imp h
    rw [hb] at hblocked
    cases hblocked
  unfold pick at hpick
  rw [hafter] at hpassed hpick
  have hsplit : rest = rest.takeWhile q.blockedAt ++ rest.dropWhile q.blockedAt :=
    List.takeWhile_append_dropWhile.symm
  rcases hdrop : rest.dropWhile q.blockedAt with _ | ⟨m', zs⟩
  · rw [hdrop] at hpick hsplit
    rw [List.append_nil] at hsplit
    rw [← hsplit] at hpassed
    rw [hl] at hd hP hpick ⊢
    exact dist_head_lt hd hP hpassed hpick hne
  · rw [hdrop] at hpick hsplit
    obtain rfl : m' = m := Option.some.inj hpick
    rw [hsplit] at hl
    rw [hl] at hd ⊢
    exact dist_lt_of_notMem hd hpassed hne

/-- `P` is ready and does not run, and the way to it from `previous`, on which the running task is,
is not longer than `d`; or the whole list is shorter. -/
structure Within (q : TaskQueue) (P d : ℕ) : Prop where
  mem : P ∈ q.nodes
  awake : q.blockedAt P = false
  idle : q.running ≠ some P
  near : q.nodes.length < d ∨ ∃ p r, q.previous = some p ∧ q.running = some r ∧
    dist q.nodes p r < dist q.nodes p P ∧ dist q.nodes p P ≤ d

/-- The task a call of `schedule` goes on from. -/
def scanStart (q : TaskQueue) : Option ℕ := q.running.or q.previous

theorem Ready.mem_scanStart (h : Ready q) (hn : q.scanStart = some n) : n ∈ q.nodes := by
  rcases h.go with ⟨r, hr, he⟩ | ⟨he, p, hp, hpe⟩
  · obtain rfl : r = n := by simpa [scanStart, he] using hn
    exact hr
  · obtain rfl : p = n := by simpa [scanStart, he, hpe] using hn
    exact hp

/-- What a call of `schedule` leaves: `previous` is where it has started. -/
theorem schedule_start (h : Ready q) (hs : q.schedule = some q') :
    ∃ n ∈ q.nodes, q.scanStart = some n ∧ q'.previous = some n ∧ q'.running = q.pick n := by
  rcases schedule_cases h hs with
    ⟨r, hr, hrun, rfl⟩ | ⟨p, hp, hrun, hprev, hafter, rfl⟩ | ⟨p, hp, hrun, hprev, -, rfl⟩
  · exact ⟨r, hr, by simp [scanStart, hrun], rfl, rfl⟩
  · exact ⟨p, hp, by simp [scanStart, hrun, hprev], hprev, by simp [pick, hafter]⟩
  · exact ⟨p, hp, by simp [scanStart, hrun, hprev], hprev, rfl⟩

theorem settled_blocked (h : q.blockedAt n = false) : (q.settled n).blocked = false := by
  obtain ⟨hsleep, hwait⟩ := Task.blocked_eq_false.1 h
  simp only [settled, hwait, Nat.lt_irrefl, false_and, if_false]
  exact h

theorem schedule_blockedAt (h : Ready q) (hs : q.schedule = some q') (hb : q.blockedAt P = false) :
    q'.blockedAt P = false := by
  obtain ⟨-, hp, -⟩ := schedule_frame h hs
  rw [blockedAt, hp]
  by_cases hscan : P ∈ q.scanned
  · simpa only [settleAll, if_pos hscan] using settled_blocked hb
  · rw [settleAll_process_of_notMem hscan]
    exact hb

/-- The way from where the call has started is the new bound. -/
theorem schedule_within (h : Ready q) (hs : q.schedule = some q') (hP : P ∈ q.nodes)
    (hb : q.blockedAt P = false) (hidle : q'.running ≠ some P)
    (hd : ∀ n, q.scanStart = some n → dist q.nodes n P ≤ d) : q'.Within P d := by
  obtain ⟨hnodes, -⟩ := schedule_frame h hs
  obtain ⟨n, hn, hstart, hprev, hrun⟩ := schedule_start h hs
  obtain ⟨m, -, hpick⟩ := exists_pick hn
  refine ⟨hnodes ▸ hP, schedule_blockedAt h hs hb, hidle,
    Or.inr ⟨n, m, hprev, hrun.trans hpick, ?_, ?_⟩⟩
  · rw [hnodes]
    refine pick_dist h.nodup hn hP hb hpick ?_
    rintro rfl
    exact hidle (hrun.trans hpick)
  · rw [hnodes]
    exact hd n hstart

/-- An operation does not put to sleep, or make wait, who does not run. -/
theorem edit_blockedAt (h : Wf q) (hr : q.running = some r) (hne : P ≠ r) (hP : P ∈ q.nodes)
    (hb : q.blockedAt P = false) {op : Op} {go : Bool} (he : q.edit r op = some (q₁, go))
    (hP₁ : P ∈ q₁.nodes) : q₁.blockedAt P = false := by
  obtain ⟨hsleep, hwait⟩ := Task.blocked_eq_false.1 hb
  refine Task.blocked_eq_false.2 ⟨?_, ?_⟩
  · have hnap := congrArg Prod.fst (edit_nap h.toSound hP he)
    simp only [Task.nap] at hnap
    rw [hnap]
    unfold napAfter
    split
    · simp [Sched.tickTask, hsleep, Task.nap]
    · rw [if_neg hne]
      exact hsleep
    · exact hsleep
  · rcases edit_origin h hr he hP₁ with ⟨⟨-, -, hkept⟩, -⟩ | ⟨hfresh, -⟩
    · rw [hkept hne, hwait]
    · exact absurd hfresh (Nat.ne_of_lt (h.lt_fresh P hP))

/-- Another task leaves that was on the way. -/
theorem leave_dist (h : Wf q) (hr : q.running = some r) (hp : q.previous = some p)
    (hP : P ∈ q.nodes) (hlt : dist q.nodes p r < dist q.nodes p P) (hl : q.leave = some q₁)
    (hP₁ : P ∈ q₁.nodes) :
    q₁.running = none ∧ q₁.previous = some p ∧ dist q₁.nodes p P < dist q.nodes p P := by
  obtain ⟨-, hne, -⟩ := mem_leave h hr hl hP₁
  obtain ⟨p', hp', hpe⟩ := h.previous
  obtain rfl : p = p' := Option.some.inj (hp.symm.trans hpe)
  have hpr : p ≠ r := by
    rintro rfl
    have hle := dist_le (a := p) hP
    rw [dist_self hp'] at hlt
    omega
  obtain ⟨r', hr', -, rfl⟩ := leave_cases hl
  obtain rfl : r = r' := Option.some.inj (hr.symm.trans hr')
  exact ⟨rfl, hp, dist_erase_lt (h.mem_running hr) hp' hP hpr hne hlt⟩

theorem edit_length {op : Op} {go : Bool} (he : q.edit r op = some (q₁, go)) :
    q₁.nodes.length ≤ q.nodes.length + op.adds.toNat := by
  have herase : ∀ {q q₁ : TaskQueue}, q.leave = some q₁ → q₁.nodes.length ≤ q.nodes.length := by
    intro q q₁ hl
    obtain ⟨r', -, -, rfl⟩ := leave_cases hl
    exact List.length_erase_le
  cases edit_cases he with
  | yield | sleep | sleepBg | await | goOn | killKernel | killNone | tick =>
    exact Nat.le_add_right _ _
  | fork => simp [fork, add, Op.adds]
  | leave _ hl => exact Nat.le_trans (herase hl) (Nat.le_add_right _ _)
  | killSelf _ _ _ hl => exact Nat.le_trans (herase hl) (Nat.le_add_right _ _)
  | kill => exact Nat.le_trans List.length_erase_le (Nat.le_add_right _ _)
  | exec hl => simpa [add, Op.adds] using herase hl
  | pageFault hl => simpa [loadSbush, add, Op.adds] using herase hl

/-- How far it is to `P` from where the call of `schedule` starts that an operation ends in. -/
theorem edit_dist (h : Wf q) (hr : q.running = some r) (hw : q.Within P (d + 1)) {op : Op}
    (he : q.edit r op = some (q₁, true)) (hP₁ : P ∈ q₁.nodes) (hn : q₁.scanStart = some n) :
    dist q₁.nodes n P ≤ d + op.adds.toNat := by
  rcases hw.near with hlen | ⟨p, r', hp, hr', hlt, hle⟩
  · have := edit_length he
    have := dist_le (a := n) hP₁
    omega
  · obtain rfl : r = r' := Option.some.inj (hr.symm.trans hr')
    obtain ⟨p', hp', hpe⟩ := h.previous
    obtain rfl : p = p' := Option.some.inj (hp.symm.trans hpe)
    have hmem := h.mem_running hr
    -- the running task is nearer to `P` than `previous`
    have hnear : dist q.nodes r P ≤ d := by
      have := dist_add hmem hlt
      have := dist_pos (b := r) hp'
      omega
    have hstay : q₁.nodes = q.nodes → q₁.running = some r → dist q₁.nodes n P ≤ d := by
      intro hnodes hrun
      obtain rfl : r = n := by simpa [scanStart, hrun] using hn
      rw [hnodes]
      exact hnear
    -- a scan that starts from `previous`, with the running task gone
    have hgone : q₁.running = none → q₁.previous = some p → n = p := by
      intro hrun hprev
      simpa [scanStart, hrun, hprev] using hn.symm
    cases edit_cases he with
    | yield | killKernel | killNone | sleep | sleepBg => exact hstay rfl hr
    | await => exact Nat.le_trans (hstay rfl hr) (Nat.le_add_right _ _)
    | leave _ hl =>
      obtain ⟨hrun, hprev, hless⟩ := leave_dist h hr hp hw.mem hlt hl hP₁
      rw [hgone hrun hprev]
      omega
    | killSelf _ _ _ hl =>
      obtain ⟨hrun, hprev, hless⟩ := leave_dist h hr hp hw.mem hlt hl hP₁
      rw [hgone hrun hprev]
      omega
    | kill hn' =>
      obtain rfl : r = n := by simpa [scanStart, remove, hr] using hn
      have hrn := (edit_wf h hr he).mem_scanStart hn
      have hne := ((List.Nodup.mem_erase_iff h.nodup).1 hrn).1
      have hnP := ((List.Nodup.mem_erase_iff h.nodup).1 hP₁).1
      exact Nat.le_trans (dist_erase_le hn' hmem hw.mem hne hnP) hnear
    | exec hl =>
      rcases mem_add hP₁ with ⟨hP₂, -⟩ | ⟨hfresh, -⟩
      · obtain ⟨hrun, hprev, hless⟩ :=
          leave_dist (h.setPID (n := q.PID - 1 + 1) (by omega)) hr hp hw.mem hlt hl hP₂
        have hready := leave_ready (h.setPID (n := q.PID - 1 + 1) (by omega)) hl
        have hpm := hready.mem_scanStart (by simp [scanStart, hrun, hprev] : _ = some p)
        rw [hgone (by simp [add, List.ne_nil_of_mem hpm, hrun]) hprev]
        exact Nat.le_trans (dist_append_le hpm hP₂ _) (Nat.lt_of_lt_of_le hless hle)
      · rw [leave_fresh hl] at hfresh
        exact absurd hfresh (Nat.ne_of_lt (h.lt_fresh P hw.mem))
    | pageFault hl =>
      have hadd := dist_append_lt hp' hw.mem hmem q.fresh hlt
      have hle' := dist_append_le hp' hw.mem q.fresh
      obtain ⟨hrun, hprev, hless⟩ := leave_dist (q := q.loadSbush) h.loadSbush
        (loadSbush_running h hr) hp (List.mem_append_left _ hw.mem) hadd hl hP₁
      rw [hgone hrun hprev]
      exact Nat.le_of_lt_succ (Nat.lt_of_lt_of_le hless (Nat.le_trans hle' (Nat.succ_le_succ hle)))

/-- An operation that does not end in a call of `schedule`. -/
theorem edit_within (h : Wf q) (hr : q.running = some r) (hw : q.Within P d) {op : Op}
    (he : q.edit r op = some (q₁, false)) (hP₁ : P ∈ q₁.nodes) (hidle : q₁.running ≠ some P) :
    q₁.Within P (d + op.adds.toNat) := by
  have hne : P ≠ r := by
    rintro rfl
    exact hw.idle hr
  have hb := edit_blockedAt h hr hne hw.mem hw.awake he hP₁
  cases edit_cases he with
  | fork =>
    refine ⟨hP₁, hb, hidle, ?_⟩
    rcases hw.near with hlen | ⟨p, r', hp, hr', hlt, hle⟩
    · exact Or.inl (by simpa [fork, add, Op.adds] using hlen)
    · obtain ⟨p', hp', hpe⟩ := h.previous
      obtain rfl : p = p' := Option.some.inj (hp.symm.trans hpe)
      have hrun : (q.fork r).running = some r' := (edit_frame h he).2 rfl ▸ hr'
      exact Or.inr ⟨p, r', hp, hrun, dist_append_lt hp' hw.mem (h.mem_running hr') _ hlt,
        Nat.le_trans (dist_append_le hp' hw.mem _) (Nat.succ_le_succ hle)⟩
  | goOn hop =>
    have hadds : op.adds = false := by
      rcases hop with rfl | ⟨pid, rfl⟩ <;> rfl
    rw [hadds]
    exact hw
  | tick => exact ⟨hP₁, hb, hidle, hw.near⟩

/-- What an operation of another task, or of the timer, does to the bound. -/
theorem step_within (h : Wf q) (hw : q.Within P d) {op : Op} (hs : q.step op = some q')
    (hP : P ∈ q'.nodes) (hidle : q'.running ≠ some P) :
    ∃ r q₁ go d', q.running = some r ∧ q.edit r op = some (q₁, go) ∧ q'.Within P d' ∧
      d' + go.toNat ≤ d + op.adds.toNat := by
  obtain ⟨r, q₁, go, hr, he, hgo⟩ := step_cases hs
  refine ⟨r, q₁, go, ?_⟩
  cases go
  · obtain rfl := hgo
    exact ⟨_, hr, he, edit_within h hr hw he hP hidle, Nat.le_refl _⟩
  · have hready : Ready q₁ := edit_wf h hr he
    have hP₁ : P ∈ q₁.nodes := (schedule_frame hready hgo).1 ▸ hP
    have hne : P ≠ r := by
      rintro rfl
      exact hw.idle hr
    obtain ⟨d, rfl⟩ : ∃ d₀, d = d₀ + 1 := by
      refine ⟨d - 1, ?_⟩
      rcases hw.near with hlen | ⟨p, r', -, -, hlt, hle⟩ <;> omega
    refine ⟨d + op.adds.toNat, hr, he, schedule_within hready hgo hP₁
      (edit_blockedAt h hr hne hw.mem hw.awake he hP₁) hidle
      (fun n hn => edit_dist h hr hw he hP₁ hn), ?_⟩
    rw [Bool.toNat_true]
    omega

/-- The last task forks and yields: now its child is the last task, and runs. -/
theorem fork_yield (h : Wf q) (hr : q.running = some r) (hlast : q.nodes.getLast? = some r) :
    ∃ q₁ q', q.step .fork = some q₁ ∧ q₁.step .yield = some q' ∧
      q'.nodes = q.nodes ++ [q.fresh] ∧ q'.running = some q.fresh ∧ q'.fresh = q.fresh + 1 := by
  obtain ⟨xs, hl⟩ : ∃ xs, q.nodes = xs ++ [r] := List.getLast?_eq_some_iff.1 hlast
  have hfork : q.step .fork = some (q.fork r) := step_of_edit_false hr rfl
  have hwf := step_wf h hfork
  have hedit : q.edit r .fork = some (q.fork r, false) := rfl
  have hrun : (q.fork r).running = some r := ((edit_frame h hedit).2 rfl).trans hr
  have hnodes : (q.fork r).nodes = xs ++ r :: [q.fresh] := by simp [fork, add, hl]
  have hafter : (q.fork r).after r = [q.fresh] := after_eq hwf.nodup hnodes
  have hchild : (q.fork r).blockedAt q.fresh = false := by
    simp [blockedAt, fork, add, Task.blocked]
  have hpick : (q.fork r).pick r = some q.fresh := by
    simp [pick, hafter, hchild]
  obtain ⟨q', hs⟩ := exists_schedule hwf.ready
  obtain ⟨hnodes', -, -, hfresh⟩ := schedule_frame hwf.ready hs
  obtain ⟨n, -, hstart, -, hrun'⟩ := schedule_start hwf.ready hs
  obtain rfl : r = n := by simpa [scanStart, hrun] using hstart
  exact ⟨q.fork r, q', hfork, (step_of_edit hrun rfl).trans hs, hnodes', hrun'.trans hpick, hfresh⟩

end TaskQueue

namespace Sched

variable {s₀ s : Sched} {P k b : ℕ}

/-- There is a task that a call of `sys_waitpid` waits for. -/
def findsChild (s : Sched) (pid : ℕ) : Bool :=
  (s.runningTask.bind fun r => (s.waitChild r pid).toOption.join).isSome

/-- Whether an operation calls `schedule`. -/
def gives (s : Sched) : Op → Bool
  | .fork | .tick => false
  | .wait => s.findsChild 0
  | .waitpid pid => if s.isBg = 1 then false else s.findsChild pid
  | _ => true

theorem findsChild_eq {q : TaskQueue} {r : ℕ} (h : Refines s q) (hr : q.running = some r)
    (pid : ℕ) : s.findsChild pid = (q.editWait r pid).2 := by
  rw [findsChild, h.running, hr, Option.bind_some, waitChild_eq h, TaskQueue.editWait]
  cases q.waitChild r pid <;> rfl

theorem gives_eq {q q₁ : TaskQueue} {r : ℕ} {op : Op} {go : Bool} (h : Refines s q)
    (hr : q.running = some r) (he : q.edit r op = some (q₁, go)) : s.gives op = go := by
  have hmap : ∀ {f : Option TaskQueue}, f.map (·, true) = some (q₁, go) → true = go := by
    rintro f hf
    obtain ⟨q', -, hpair⟩ := Option.map_eq_some_iff.1 hf
    exact (Prod.mk.inj hpair).2
  cases op with
  | yield | fork | tick => exact (Prod.mk.inj (Option.some.inj he)).2
  | sleep time bg => cases bg <;> exact (Prod.mk.inj (Option.some.inj he)).2
  | exit | kill | pageFault => exact hmap he
  | exec file =>
    cases file with
    | none => exact hmap he
    | some name =>
      obtain ⟨q', -, hpair⟩ := Option.map_eq_some_iff.1 he
      exact (Prod.mk.inj hpair).2
  | wait =>
    have hgo := congrArg Prod.snd (Option.some.inj he)
    exact (findsChild_eq h hr 0).trans hgo
  | waitpid pid =>
    have hgo := congrArg Prod.snd (Option.some.inj he)
    by_cases hbg : q.isBg = 1
    · simpa [gives, h.isBg, hbg] using hgo
    · rw [if_neg hbg] at hgo
      simpa [gives, h.isBg, hbg, findsChild_eq h hr] using hgo

/-- A step of a run that counts the calls of `schedule` and the new tasks, after which `P` is in the
list and another task runs. -/
def PassStep (P : ℕ) (x : Sched × ℕ × ℕ) (op : Op) (x' : Sched × ℕ × ℕ) : Prop :=
  x.1.step op = .ok x'.1 ∧ x'.1.Listed P ∧ x'.1.runningTask ≠ some P ∧
    x'.2 = (x.2.1 + (x.1.gives op).toNat, x.2.2 + op.adds.toNat)

/-- From every state that has been reached: while a task in the list that neither sleeps nor waits
is not selected, there are at most as many calls of `schedule` as there are tasks in the list, and
one more for every new task. -/
theorem selected_within {l : List ℕ} (h₀ : Reach Step boot s₀)
    (hc : Linked.Chain s₀.next s₀.queueHead l) (hP : P ∈ l)
    (hready : (s₀.process P).isSleeping = 0 ∧ (s₀.process P).isWaiting = 0)
    (hidle : s₀.runningTask ≠ some P) (h : Reach (PassStep P) (s₀, 0, 0) (s, k, b)) :
    k ≤ l.length + b := by
  obtain ⟨q₀, hq₀, hw₀⟩ := reach_wf h₀
  obtain rfl := hc.unique hq₀.chain
  have hstart : q₀.Within P (q₀.nodes.length + 1) :=
    ⟨hP, Task.blocked_eq_false.2 (hq₀.process ▸ hready), hq₀.running ▸ hidle,
      Or.inl (Nat.lt_succ_self _)⟩
  obtain ⟨q, d, -, -, hw, hle⟩ := h.invariant
    (P := fun x => ∃ q d, Refines x.1 q ∧ q.Wf ∧ q.Within P d ∧
      d + x.2.1 ≤ q₀.nodes.length + 1 + x.2.2)
    ⟨q₀, _, hq₀, hw₀, hstart, Nat.le_refl _⟩
    (by
      rintro ⟨s, k, b⟩ op ⟨s', k', b'⟩ ⟨q, d, hq, hw, hwithin, hle⟩ ⟨hs, hlisted, hidle', hcount⟩
      obtain ⟨rfl, rfl⟩ := Prod.mk.inj hcount
      obtain ⟨q', hq', hR⟩ := (step_sim hq hw op).of_ok hs
      obtain ⟨r, q₁, go, d', hr, he, hwithin', hle'⟩ := TaskQueue.step_within hw hwithin hq'
        ((listed_iff hR).1 hlisted) (hR.running ▸ hidle')
      refine ⟨q', d', hR, TaskQueue.step_wf hw hq', hwithin', ?_⟩
      simp only [gives_eq hq hr he] at hle ⊢
      omega)
  have : 0 < d := by
    rcases hw.near with hlen | ⟨p, r', -, -, hlt, hd⟩ <;> omega
  simp only at hle
  omega

/-- The shell forks and waits, and its child is selected before the boot task. -/
theorem selected_within_wait : ∃ s, boot.run [.fork, .wait] = .ok s ∧
    Reach (PassStep bootNode) (boot, 0, 0) (s, 1, 1) ∧ 1 ≤ [bootNode, 1].length + 1 := by
  have hfork :
      Reach (PassStep bootNode) (boot, 0, 0) ((boot.step .fork).toOption.getD empty, 0, 1) :=
    .step .start (a := .fork) ⟨rfl, ⟨[0, 1, 2], ⟨rfl, rfl, rfl, rfl⟩, by decide⟩, by decide, rfl⟩
  have hrun : Reach (PassStep bootNode) (boot, 0, 0)
      ((boot.run [.fork, .wait]).toOption.getD empty, 1, 1) :=
    hfork.step (a := .wait) ⟨rfl, ⟨[0, 1, 2], ⟨rfl, rfl, rfl, rfl⟩, by decide⟩, by decide, rfl⟩
  exact ⟨_, rfl, hrun, selected_within Reach.start ⟨rfl, rfl, rfl⟩ (by decide) (by decide)
    (by decide) hrun⟩

/-! ## Starvation -/

theorem run_append (ops ops' : List Op) (s : Sched) :
    s.run (ops ++ ops') = s.run ops >>= fun s' => s'.run ops' := by
  simp [run, List.foldlM_append]

theorem run_fork_yield : ∀ (n : ℕ) {s : Sched} {q : TaskQueue} {r : ℕ}, Refines s q → q.Wf →
    q.running = some r → q.nodes.getLast? = some r →
    ∃ s' q' r', s.run (List.replicate n [Op.fork, .yield]).flatten = .ok s' ∧ Refines s' q' ∧
      q'.running = some r' ∧ q.nodes ⊆ q'.nodes ∧ (n = 0 ∧ r' = r ∨ q.fresh ≤ r')
  | 0, s, q, r, hq, _, hr, _ => ⟨s, q, r, rfl, hq, hr, fun _ h => h, Or.inl ⟨rfl, rfl⟩⟩
  | n + 1, s, q, r, hq, hw, hr, hlast => by
    obtain ⟨q₁, q₂, hfork, hyield, hnodes, hrun, hfresh⟩ := TaskQueue.fork_yield hw hr hlast
    obtain ⟨s₁, hs₁, hR₁⟩ := (step_sim hq hw .fork).of_some hfork
    have hw₁ := TaskQueue.step_wf hw hfork
    obtain ⟨s₂, hs₂, hR₂⟩ := (step_sim hR₁ hw₁ .yield).of_some hyield
    obtain ⟨s', q', r', hs', hR', hr', hsub, hnew⟩ :=
      run_fork_yield n hR₂ (TaskQueue.step_wf hw₁ hyield) hrun (by simp [hnodes])
    refine ⟨s', q', r', ?_, hR', hr', fun m hm => hsub ?_, Or.inr ?_⟩
    · rw [List.replicate_succ, List.flatten_cons, run_append]
      exact Run.bind_eq_ok.2 ⟨s₂, Run.bind_eq_ok.2 ⟨s₁, hs₁, Run.bind_eq_ok.2 ⟨s₂, hs₂, rfl⟩⟩, hs'⟩
    · rw [hnodes]
      exact List.mem_append_left _ hm
    · omega

/-- If the last task forks and yields, and each child does the same, no task of the list as it was
is selected again, however long this goes on. -/
theorem fork_starves {l : List ℕ} (h₀ : Reach Step boot s₀)
    (hc : Linked.Chain s₀.next s₀.queueHead l) (hlast : s₀.runningTask = l.getLast?) (n : ℕ) :
    ∃ s r, s₀.run (List.replicate (n + 1) [Op.fork, .yield]).flatten = .ok s ∧
      s.runningTask = some r ∧ r ∉ l ∧ ∀ P ∈ l, s.Listed P := by
  obtain ⟨q₀, hq₀, hw₀⟩ := reach_wf h₀
  obtain rfl := hc.unique hq₀.chain
  obtain ⟨r₀, -, hr₀⟩ := hw₀.running
  obtain ⟨s, q, r, hs, hR, hr, hsub, hnew⟩ := run_fork_yield (n + 1) hq₀ hw₀ hr₀
    (by rw [← hlast, hq₀.running, hr₀])
  refine ⟨s, r, hs, hR.running.trans hr, fun hmem => ?_, fun P hP => (listed_iff hR).2 (hsub hP)⟩
  have := hw₀.lt_fresh r hmem
  omega

theorem fork_starves_boot : ∃ s r, boot.run [.fork, .yield, .fork, .yield] = .ok s ∧
    s.runningTask = some r ∧ r ∉ [bootNode, 1] := by
  obtain ⟨s, r, hs, hr, hnew, -⟩ := fork_starves (l := [bootNode, 1]) Reach.start
    ⟨rfl, rfl, rfl⟩ (by decide) 1
  exact ⟨s, r, hs, hr, hnew⟩

end Sched

end Bgox
