import Bgox.Ps
import Bgox.Proofs.Dir
import Bgox.Proofs.Sleep

/-!
# What `ps` shows

In every state that is reached, `print_task_list` prints one line for each task of the list, in the
order of the list, and calls exactly those tasks running that `schedule` does not pass over
(`ps_lists`).  The function compares `is_sleeping` with 1 and `schedule` with 0, which is the same
because the mark is never anything else (`Marked`).
-/

namespace Bgox

open Keyboard (chars)
open Run (Reach bind_eq_ok)

/-! ## The mark -/

namespace TaskQueue

variable {q q' : TaskQueue}

/-- `is_sleeping` is 0 or 1. -/
def Marked (q : TaskQueue) : Prop := ∀ n ∈ q.nodes, (q.process n).isSleeping ≤ 1

theorem napAfter_le {r n : ℕ} (h : (q.process n).isSleeping ≤ 1) (op : Op) :
    (q.napAfter r op n).1 ≤ 1 := by
  unfold napAfter
  split
  · simp only [Sched.tickTask, Task.nap]
    split_ifs
    · exact Nat.zero_le 1
    · exact Nat.le_refl 1
    · exact h
  · split_ifs
    · exact Nat.le_refl 1
    · exact h
  · exact h

theorem step_marked (h : Wf q) (hm : Marked q) {op : Op} (hs : q.step op = some q') :
    Marked q' := by
  intro n hn
  obtain ⟨r, q₁, go, hr, he, hgo⟩ := step_cases hs
  have hedit : ∀ m ∈ q₁.nodes, (q₁.process m).isSleeping ≤ 1 := by
    intro m hm₁
    rcases edit_origin h hr he hm₁ with ⟨⟨hmem, -, -⟩, -⟩ | ⟨-, hborn⟩
    · have hnap := congrArg Prod.fst (edit_nap h.toSound hmem he)
      exact hnap.trans_le (napAfter_le (hm m hmem) op)
    · have hzero : (q₁.process m).isSleeping = 0 := by
        cases op with
        | fork | pageFault => rw [← Option.some.inj hborn]
        | exec file =>
          cases file with
          | none => cases hborn
          | some name => rw [← Option.some.inj hborn]
        | _ => cases hborn
      omega
  cases go
  · obtain rfl := hgo
    exact hedit n hn
  · obtain ⟨hnodes, hp, -⟩ := schedule_frame (edit_wf h hr he) hgo
    rw [hp, settleAll_isSleeping]
    exact hedit n (hnodes ▸ hn)

end TaskQueue

/-! ## The lines -/

/-- Whether a task waits, is passed over for another reason, or may be selected. -/
def Task.state (t : Task) : List UInt8 :=
  if 0 < t.isWaiting then chars ['W', 'a', 'i', 't', 'i', 'n', 'g']
  else if t.blocked then chars ['S', 'l', 'e', 'e', 'p', 'i', 'n', 'g']
  else chars ['R', 'u', 'n', 'n', 'i', 'n', 'g']

/-- The line of a task. -/
def Task.line (t : Task) : List UInt8 :=
  numeral .dec (t.pid % 2 ^ 64) ++ 32 :: t.tname ++ 32 :: t.state ++ [10]

theorem Task.status_eq {t : Task} (h : t.isSleeping ≤ 1) : t.status = t.state := by
  have hone : t.isSleeping = 1 ↔ t.isSleeping ≠ 0 := by omega
  by_cases hwait : 0 < t.isWaiting
  · simp [status, state, hwait]
  · simp [status, state, hwait, hone, Task.blocked]

theorem Task.status_plain (t : Task) : Plain t.status ∧ t.status.length ≤ 8 := by
  unfold status
  split_ifs <;> exact ⟨by simp [Plain, chars, Char.toUInt8], by decide⟩

theorem kprintf_psHeader (f : Frame) : kprintf f (psHeader ++ [0]) [] = .ok [psHeader] :=
  @Format.kprintf_format
    ⟨psHeader, [], by simp [Plain, psHeader, chars, Char.toUInt8], by simp⟩ f [] (by decide)
    (by decide) (by simp) (fun i p hi => by simp at hi)

def psParts (t : Task) : List (Directive × List UInt8) :=
  [(.dec (.ofNat t.pid), [32]), (.str t.tname [], [])]

theorem psParts_clean {t : Task} (hname : 0 ∉ t.tname) :
    ∀ p ∈ psParts t, p.1.Clean ∧ Plain p.2 := by
  simpa [psParts, Plain, Directive.Clean] using hname

/-- What is printed first of a task. -/
def psFormat (t : Task) (hname : 0 ∉ t.tname) : Format :=
  ⟨[], psParts t, List.forall_mem_nil _, psParts_clean hname⟩

theorem kprintf_psRow (f : Frame) {t : Task} (hname : 0 ∉ t.tname)
    (hlen : t.tname.length < FMT_LEN) :
    kprintf f (psRow ++ [0]) [.word (.ofNat t.pid), .ptr (t.tname ++ [0])]
      = .ok [[], numeral .dec (t.pid % 2 ^ 64) ++ [32], t.tname] := by
  have hnum := length_numeral_le .dec (.ofNat t.pid)
  have hrow : ∀ p ∈ (psFormat t hname).parts,
      (row p).length < FMT_LEN ∧ (shown p).length < FMT_LEN := by
    simp only [psFormat, psParts, List.mem_cons, List.not_mem_nil, or_false, forall_eq_or_imp,
      forall_eq, row, shown, Directive.expansion, List.length_append, List.length_cons,
      List.length_nil]
    rw [FMT_LEN] at *
    omega
  have hformat := @Format.kprintf_format (psFormat t hname) f [] (Nat.le_add_left 2 7)
    (Nat.zero_lt_succ 99) (fun p hp => (hrow p hp).2)
    (fun i p hi => Or.inl (hrow p (List.mem_of_getElem? hi)).1)
  have hshown : (psFormat t hname).lead :: (psFormat t hname).parts.map shown
      = [[], numeral .dec (t.pid % 2 ^ 64) ++ [32], t.tname] := by
    simp [psFormat, psParts, shown, Directive.expansion]
  rw [hshown] at hformat
  exact hformat

theorem kprintf_psStatus (f : Frame) (t : Task) :
    kprintf f (psStatus ++ [0]) [.ptr (t.status ++ [0])] = .ok [[32], t.status ++ [10]] := by
  obtain ⟨hplain, hlen⟩ := t.status_plain
  have hformat := @kprintf_strFormat f [32] [10] t.status (by simp [Plain]) (by simp [Plain])
    hplain.zero_notMem (by decide) (by decide)
  rw [if_pos (by simp only [List.length_singleton, FMT_LEN]; omega)] at hformat
  exact hformat

namespace Sched

/-- A task whose line can be printed. -/
structure Printable (t : Task) : Prop where
  name : 0 ∉ t.tname
  length : t.tname.length < FMT_LEN
  mark : t.isSleeping ≤ 1

theorem printTaskLoop_eq (f : ℕ → Frame) {s : Sched} : ∀ {fuel i : ℕ} {l : List ℕ} {p : Option ℕ},
    Linked.Chain s.next p l → l.length < fuel → (∀ n ∈ l, Printable (s.process n)) →
    ∃ out, printTaskLoop f s fuel i p = .ok out ∧
      out.flatten = l.flatMap fun n => (s.process n).line
  | 0, _, _, _, _, hfuel, _ => by omega
  | fuel + 1, i, [], _, hc, _, _ => by
    cases hc
    exact ⟨[], rfl, rfl⟩
  | fuel + 1, i, n :: l, _, ⟨hp, hc⟩, hfuel, hprint => by
    subst hp
    obtain ⟨hname, hlen, hmark⟩ := hprint n List.mem_cons_self
    obtain ⟨out, hout, hflat⟩ := printTaskLoop_eq f (i := i + 1) hc (Nat.lt_of_succ_lt_succ hfuel)
      fun m hm => hprint m (List.mem_cons_of_mem _ hm)
    refine ⟨[[], numeral .dec ((s.process n).pid % 2 ^ 64) ++ [32], (s.process n).tname] ++
      [[32], (s.process n).status ++ [10]] ++ out, ?_, ?_⟩
    · rw [printTaskLoop, kprintf_psRow _ hname hlen, kprintf_psStatus]
      exact bind_eq_ok.2 ⟨_, rfl, bind_eq_ok.2 ⟨_, rfl, bind_eq_ok.2 ⟨_, hout, rfl⟩⟩⟩
    · simp [hflat, Task.line, Task.status_eq hmark]

/-- In every state that is reached `ps` shows each task of the list, in its order, and who is shown
to be running is whom `schedule` does not pass over. -/
theorem ps_lists {s : Sched} {l : List ℕ} (f : ℕ → Frame) (h : Reach Step boot s)
    (hc : Linked.Chain s.next s.queueHead l)
    (hname : ∀ n ∈ l, 0 ∉ (s.process n).tname ∧ (s.process n).tname.length < FMT_LEN) :
    ∃ out, printTaskList f s = .ok out ∧
      out.flatten = psHeader ++ l.flatMap fun n => (s.process n).line := by
  obtain ⟨q, hq, hw, hmarked⟩ := reach_refines (P := TaskQueue.Marked) (fun _ _ _ hs => hs)
    (by unfold TaskQueue.Marked; decide)
    (fun _ _ _ _ _ _ hw hm _ hq' => TaskQueue.step_marked hw hm hq') h
  obtain rfl := hc.unique hq.chain
  have hprint : ∀ n ∈ q.nodes, Printable (s.process n) := fun n hn =>
    ⟨(hname n hn).1, (hname n hn).2, by rw [hq.process]; exact hmarked n hn⟩
  obtain ⟨out, hout, hflat⟩ := printTaskLoop_eq f (i := 0) hc hq.length_lt_fuel hprint
  refine ⟨[psHeader] ++ out, ?_, by simp [hflat]⟩
  rw [printTaskList, kprintf_psHeader]
  exact bind_eq_ok.2 ⟨_, rfl, bind_eq_ok.2 ⟨_, hout, rfl⟩⟩

/-- The boot task and the shell. -/
theorem ps_lists_boot : ∃ out, printTaskList (fun _ => Frame.zeros) boot = .ok out ∧
    out.flatten = psHeader ++ ((boot.process 0).line ++ (boot.process 1).line) := by
  obtain ⟨out, hout, hflat⟩ := @ps_lists boot [0, 1] (fun _ => Frame.zeros) Reach.start
    ⟨rfl, rfl, rfl⟩ (by decide)
  exact ⟨out, hout, by simpa using hflat⟩

end Sched

end Bgox
