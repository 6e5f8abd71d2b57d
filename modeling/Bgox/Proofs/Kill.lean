import Bgox.Proofs.TaskRun

/-!
# The boot task and `sys_kill`

`sys_kill` refuses to kill a task with the kernel's name, but only after it has looked whether the
caller's parent is to be killed.  The shell is a child of the boot task, so its `kill(0)` is a call
of that kind: `delete_from_task_list` either follows the list past its end, when the boot task ran
before the shell (`shell_kills_kernel`), or takes the boot task out of the list.

A run without such calls keeps the boot task at the head, and a call is of this kind exactly if it
does not (`kernel_kept`).
-/

namespace Bgox

open Run (Reach)

namespace TaskQueue

variable {q q' : TaskQueue} {r : ℕ}

/-- What a child of the boot task does with `kill(0)`. -/
theorem head_of_kill_parent (hq : Wf q) (h : BootHead q) (hr : q.running = some r)
    (hp : (q.process r).ppid = 0) (hs : q.step (.kill 0) = some q') :
    q'.nodes.head? ≠ some bootNode := by
  obtain ⟨q₁, go, he, hgo⟩ := step_edit hr hs
  obtain ⟨q₂, hk, hq₂⟩ := Option.map_eq_some_iff.1 he
  obtain ⟨rfl, rfl⟩ := Prod.mk.inj hq₂
  rw [editKill, if_pos hp] at hk
  have hready := edit_wf hq hr he
  obtain ⟨hn, -⟩ := schedule_frame hready hgo
  have hnodup := hq.nodup
  have hh := h.head
  rw [hn]
  cases hl : q.nodes with
  | nil => simp [hl] at hh
  | cons a l =>
    rw [hl, List.head?_cons, Option.some.injEq] at hh
    subst hh
    have hlook : q.lookup 0 = some bootNode := by
      rw [lookup, hl]
      exact List.find?_cons_of_pos (by simp [h.pid])
    rw [delete, hlook] at hk
    dsimp only at hk
    split_ifs at hk
    obtain rfl := Option.some.inj hk
    rw [remove, hl, List.erase_cons_head]
    rw [hl] at hnodup
    exact fun hhead => (List.nodup_cons.1 hnodup).1 (List.mem_of_mem_head? hhead)

end TaskQueue

namespace Sched

variable {s : Sched} {q : TaskQueue}

/-- The boot task is the head of the list, as it was made. -/
def BootKept (s : Sched) : Prop :=
  ∃ l, Linked.Chain s.next s.queueHead l ∧ l.head? = some bootNode ∧
    (s.process bootNode).pid = 0 ∧ (s.process bootNode).tname = kernel

theorem bootKept_of_bootHead (h : Refines s q) (hb : q.BootHead) : s.BootKept :=
  ⟨q.nodes, h.chain, hb.head, by rw [h.process]; exact hb.pid, by rw [h.process]; exact hb.name⟩

/-- The boot task idles, and no child of it kills pid 0. -/
def SparingStep (s : Sched) (op : Op) (s' : Sched) : Prop :=
  (s.runningTask = some bootNode → op = .yield ∨ op = .tick) ∧
    (op = .kill 0 → ∀ r, s.runningTask = some r → (s.process r).ppid ≠ 0) ∧ s.step op = .ok s'

/-- The boot task is the head of the list in every state of such a run; and a call of `sys_kill`
by another task returns and keeps it there, exactly if it does not kill pid 0 as its parent. -/
theorem kernel_kept (h : Reach SparingStep boot s) :
    s.BootKept ∧ ∀ r, s.runningTask = some r → r ≠ bootNode → ∀ pid,
      ((∃ s', s.sysKill pid = .ok s' ∧ s'.BootKept) ↔ ¬ (pid = 0 ∧ (s.process r).ppid = 0)) := by
  obtain ⟨q, hq, hw, hb, ha⟩ := reach_refines (P := fun q => q.BootHead ∧ q.Awake)
    (fun _ _ _ hs => hs.2.2) ⟨⟨rfl, rfl, rfl, rfl⟩, fun r hr => by cases hr; rfl⟩
    (fun s q op s' q' hR hw hp hs hq' =>
      TaskQueue.step_bootHead hw hp.1 hp.2 (fun hr => hs.1 (by rw [hR.running, hr]))
        (fun r hr hop => by rw [← hR.process]; exact hs.2.1 hop r (by rw [hR.running, hr])) hq')
    h
  refine ⟨bootKept_of_bootHead hq hb, fun r hr hne pid => ⟨?_, fun hnot => ?_⟩⟩
  · rintro ⟨s', hs', l, hc, hhead, -, -⟩ ⟨rfl, hp⟩
    obtain ⟨q', hq', hR⟩ := (step_sim hq hw (.kill 0)).of_ok hs'
    rw [hq.running] at hr
    rw [hq.process] at hp
    rw [hc.unique hR.chain] at hhead
    exact TaskQueue.head_of_kill_parent hw hb hr hp hq' hhead
  · have hidle : q.running = some bootNode → TaskQueue.Idles (.kill pid) := fun hrun => by
      rw [hq.running, hrun] at hr
      exact absurd (Option.some.inj hr).symm hne
    have hspare : ∀ r', q.running = some r' → q.Spares r' (.kill pid) := fun r' hr' hop => by
      obtain rfl : r = r' := by simpa [hq.running, hr'] using hr.symm
      rw [← hq.process]
      exact fun hp => hnot ⟨by cases hop; rfl, hp⟩
    obtain ⟨q', hq'⟩ := TaskQueue.exists_step hw hb hidle hspare
    obtain ⟨s', hs', hR⟩ := (step_sim hq hw (.kill pid)).of_some hq'
    exact ⟨s', hs', bootKept_of_bootHead hR
      (TaskQueue.step_bootHead hw hb ha hidle hspare hq').1⟩

/-- The shell forks, and its child may try. -/
theorem kernel_kept_child : ∃ s s', boot.run [.fork, .yield] = .ok s ∧ s.BootKept ∧
    s.sysKill 0 = .ok s' ∧ s'.BootKept := by
  let s₁ := (boot.step .fork).toOption.getD empty
  let s₂ := (s₁.step .yield).toOption.getD empty
  have h₁ : Reach SparingStep boot s₁ :=
    Reach.step (a := .fork) Reach.start ⟨(fun hb => by cases hb), (fun hop => by cases hop), rfl⟩
  have h₂ : Reach SparingStep boot s₂ :=
    Reach.step (a := .yield) h₁ ⟨fun _ => Or.inl rfl, (fun hop => by cases hop), rfl⟩
  obtain ⟨hkept, hkill⟩ := kernel_kept h₂
  obtain ⟨s', hs', hkept'⟩ := (hkill 2 rfl (by decide) 0).2 (by decide)
  exact ⟨s₂, s', rfl, hkept, hs', hkept'⟩

/-- The first call of the shell: the boot task is `previous`, and nothing points to it. -/
theorem shell_kills_kernel : boot.runningTask = some 1 ∧ (boot.process 1).ppid = 0 ∧
    boot.sysKill 0 = .error .null :=
  ⟨rfl, rfl, rfl⟩

end Sched

end Bgox
