import Bgox.Proofs.Clock
import Bgox.Proofs.Sleep

/-!
# How long a sleep lasts

`dec_sleep_count` is called by the interrupts that find a multiple of a hundred in `ticks`, and the
caller of `sys_sleep` may have come anywhere between two of them.  So the first of the hundreds it
sleeps for is cut short, and the others are whole (`sleep_measured`).
-/

namespace Bgox

open Run (Reach bind_eq_ok)

namespace Clock

theorem ticks_timer {c c' : Clock} {f : BoottFrame} {n : ℕ} (hn : c.ticks = n)
    (hlt : n + 1 < 2 ^ 31) (hs : c.irqTimerHandler f = .ok c') : c'.ticks = (n + 1 : ℕ) := by
  have hnext := int_succ hn hlt
  have hret : ∀ {s : Clock} {d : ℕ}, s.ticks = c.ticks →
      (pure { s with decs := d, ticks := int (s.ticks + 1) } : Except Trap Clock) = .ok c' →
      c'.ticks = (n + 1 : ℕ) := by
    intro s d hsame hpure
    have hticks : int (s.ticks + 1) = c'.ticks := congrArg Clock.ticks (Except.ok.inj hpure)
    rw [← hticks, hsame, hnext]
  by_cases hzero : c.ticks.tmod 100 = 0
  · simp only [irqTimerHandler, if_pos hzero] at hs
    split_ifs at hs
    · obtain ⟨console, -, hs⟩ := bind_eq_ok.1 hs
      obtain ⟨s, hpure, hs⟩ := bind_eq_ok.1 hs
      exact hret (congrArg Clock.ticks (Except.ok.inj hpure)).symm hs
    · exact hret rfl hs
  · rw [irqTimerHandler, if_neg hzero] at hs
    exact hret (d := c.decs) rfl hs

end Clock

namespace Ticker

variable {x x' : Ticker} {P T n t : ℕ}

/-- How many multiples of 100 there are from `T` on, among `n` numbers. -/
def seconds (T n : ℕ) : ℕ := (T + n + 99) / 100 - (T + 99) / 100

theorem seconds_succ (T n : ℕ) :
    seconds T (n + 1) = seconds T n + if (T + n) % 100 = 0 then 1 else 0 := by
  simp only [seconds]
  split_ifs <;> omega

theorem opOf_timer (hx : x.clock.ticks = (T + n : ℕ)) (f : BoottFrame) :
    x.opOf (.clock (.timer f)) = if (T + n) % 100 = 0 then some .tick else none := by
  have hmod : x.clock.ticks.tmod 100 = 0 ↔ (T + n) % 100 = 0 := by
    rw [hx, Int.tmod_eq_emod_of_nonneg (by omega)]
    omega
  simp only [opOf, hmod]

/-- A step of a run that counts the interrupts of the timer, in which `P` stays in the list and
`schedule` does not go round to it. -/
def Rests (P : ℕ) (y : Ticker × ℕ) (e : Event) (y' : Ticker × ℕ) : Prop :=
  y.1.Step e y'.1 ∧ y'.1.sched.Listed P ∧ (∀ op, e = .op op → ¬ y.1.sched.WrapsTo op P) ∧
    y'.2 = y.2 + e.isTimer.toNat

theorem not_wrapsTo_tick (s : Sched) (P : ℕ) : ¬ s.WrapsTo .tick P := by
  rintro ⟨q, r, -, -, q₁, he, -⟩
  cases he

/-- The clock has gone on, and `P` sleeps until the `t`-th second. -/
def Resting (P t T : ℕ) (y : Ticker × ℕ) : Prop :=
  T + y.2 < 2 ^ 31 →
    y.1.clock.ticks = (T + y.2 : ℕ) ∧ Sched.Asleep P t (y.1.sched, seconds T y.2)

theorem Resting.step (ht : t < 2 ^ 31) {y y' : Ticker × ℕ} {e : Event} (h : Resting P t T y)
    (hs : Rests P y e y') : Resting P t T y' := by
  obtain ⟨x, n⟩ := y
  obtain ⟨x', n'⟩ := y'
  obtain ⟨⟨hown, hclock, hsched⟩, hlisted, hwraps, hn⟩ := hs
  intro hlt
  have hidle : x.opOf e = none → x'.sched = x.sched := by
    intro he
    rw [schedStep, he] at hsched
    exact (Except.ok.inj hsched).symm
  cases e with
  | op op =>
    obtain rfl : n' = n := hn
    obtain ⟨hticks, hsleep⟩ := h hlt
    have hop : op ≠ .tick := fun he => hown (congrArg _ he)
    have hsame : x.clock = x'.clock := Except.ok.inj hclock
    refine ⟨hsame ▸ hticks, ?_⟩
    exact Sched.sleepStep_asleep ht hsleep ⟨hsched, hlisted, hwraps op rfl, (if_neg hop).symm⟩
  | clock e =>
    cases e with
    | timer f =>
      obtain rfl : n' = n + 1 := hn
      have hlt' : T + n + 1 < 2 ^ 31 := hlt
      obtain ⟨hticks, hsleep⟩ := h (Nat.lt_of_succ_lt hlt')
      refine ⟨Clock.ticks_timer hticks hlt' hclock, ?_⟩
      have hop := opOf_timer hticks f
      simp only [seconds_succ]
      by_cases hdue : (T + n) % 100 = 0
      · rw [if_pos hdue] at hop ⊢
        rw [schedStep, hop] at hsched
        exact Sched.sleepStep_asleep ht hsleep
          ⟨hsched, hlisted, not_wrapsTo_tick x.sched P, (if_pos rfl).symm⟩
      · rw [if_neg hdue] at hop ⊢
        rw [hidle hop]
        exact hsleep
    | print | backspace | clear =>
      obtain rfl : n' = n := hn
      obtain ⟨hticks, hsleep⟩ := h hlt
      have hsame : x'.clock.ticks = x.clock.ticks := by rw [← Except.ok.inj hclock]
      refine ⟨hsame.trans hticks, ?_⟩
      simp only [hidle rfl]
      exact hsleep

/-- The interrupt that finds the last of the seconds takes the mark away, and no other does. -/
theorem timer_wakes_iff {q : TaskQueue} {f : BoottFrame} (ht : t < 2 ^ 31)
    (hticks : x.clock.ticks = (T + n : ℕ)) (hq : Refines x.sched q) (hwf : q.Wf)
    (hz : q.Sleeps P (t - seconds T n)) (hk : seconds T n < t)
    (hstep : x.Step (.clock (.timer f)) x') :
    (x'.sched.process P).isSleeping = 0 ↔ (T + n) % 100 = 0 ∧ seconds T n + 1 = t := by
  have hop := opOf_timer hticks f
  have hsched := hstep.sched
  by_cases hdue : (T + n) % 100 = 0
  · rw [schedStep, hop, if_pos hdue] at hsched
    obtain ⟨k, hleft⟩ : ∃ k, t - seconds T n = k + 1 := ⟨t - seconds T n - 1, by omega⟩
    rw [Sched.tick_isSleeping hq hwf (hleft ▸ hz) (by omega) hsched]
    split_ifs with hzero
    · simp only [hdue, true_and, true_iff]
      omega
    · simp only [hdue, true_and, false_iff]
      omega
  · have hmark : (x.sched.process P).isSleeping = 1 := by
      rw [hq.process]
      exact hz.isSleeping
    rw [schedStep, hop, if_neg hdue] at hsched
    rw [← Except.ok.inj hsched, hmark]
    simp [hdue]

/-- A task has called `sys_sleep(t)`, and `schedule` does not go round to it.  As long as fewer than
`t` multiples of 100 have come up in `ticks` it is asleep and does not run.  The interrupt that
takes the mark away is the one that finds the `t`-th of them: at most `100 * t` interrupts after the
call, and more than `100 * (t - 1)`, of 13532 periods of the timer's input each. -/
theorem sleep_measured {s₀ s₁ : Sched} {c : Clock} {bg : Bool} (p : Pit)
    (h₀ : Reach Sched.Step Sched.boot s₀) (hP : s₀.runningTask = some P) (ht : t < 2 ^ 31)
    (hs : s₀.step (.sleep t bg) = .ok s₁) (hwraps : ¬ s₀.WrapsTo (.sleep t bg) P)
    (hT : c.ticks = T) (hrun : Reach (Rests P) (⟨c, s₁⟩, 0) (x, n)) (hlt : T + n < 2 ^ 31)
    (hk : seconds T n < t) :
    (x.sched.process P).isSleeping = 1 ∧ x.sched.runningTask ≠ some P ∧
      ∀ f x', x.Step (.clock (.timer f)) x' →
        ((x'.sched.process P).isSleeping = 0 ↔ (T + n) % 100 = 0 ∧ seconds T n + 1 = t) ∧
        ((x'.sched.process P).isSleeping = 0 →
          1353200 * (t - 1) < p.timerInit.reload * (n + 1) ∧
            p.timerInit.reload * (n + 1) ≤ 1353200 * t) := by
  obtain ⟨q₀, hq₀, hw₀⟩ := reach_wf h₀
  have hr₀ : q₀.running = some P := hq₀.running ▸ hP
  obtain ⟨q₁, hq₁, hR₁⟩ := (Sched.step_sim hq₀ hw₀ _).of_ok hs
  obtain ⟨hmem, hnap, hsel⟩ := TaskQueue.sleep_sleeps hw₀ hr₀ ht hq₁
  have hstart : Resting P t T (⟨c, s₁⟩, 0) := fun _ => by
    refine ⟨hT, fun _ => ⟨q₁, hR₁, TaskQueue.step_wf hw₀ hq₁, hmem, ?_, fun hrun' => ?_⟩⟩
    · simpa [seconds] using hnap
    · exact hwraps ((Sched.wrapsTo_iff hq₀ hr₀ _).2 (hsel.1 hrun'))
  obtain ⟨hticks, hsleep⟩ :=
    hrun.invariant hstart (fun y e y' hy hstep => hy.step ht hstep) hlt
  obtain ⟨q, hq, hwf, hz⟩ := hsleep hk
  refine ⟨by rw [hq.process]; exact hz.isSleeping, by rw [hq.running]; exact hz.idle,
    fun f x' hstep => ?_⟩
  have hiff := timer_wakes_iff ht hticks hq hwf hz hk hstep
  refine ⟨hiff, fun hzero => ?_⟩
  obtain ⟨hdue, hlast⟩ := hiff.1 hzero
  rw [Clock.timerInit_reload]
  simp only [seconds] at hlast
  omega

theorem not_wrapsTo_yield {s : Sched} (hhead : s.queueHead ≠ some P) : ¬ s.WrapsTo .yield P := by
  rintro ⟨q, r, hq, -, q₁, he, hP, -⟩
  obtain rfl := (Prod.mk.inj (Option.some.inj he)).1
  exact hhead (hq.head.trans hP)

/-- The shell sleeps for a second from the start on, and the boot task yields: the first interrupt
wakes the shell. -/
theorem sleep_measured_one : ∃ s₁ s₂, Sched.boot.step (.sleep 1 false) = .ok s₁ ∧
    s₁.step .yield = .ok s₂ ∧ (s₂.process 1).isSleeping = 1 ∧
    ∀ f x', Step ⟨Clock.atBoot, s₂⟩ (.clock (.timer f)) x' →
      (x'.sched.process 1).isSleeping = 0 := by
  have hwraps : ¬ Sched.boot.WrapsTo (.sleep (1 : ℕ) false) 1 := by
    rintro ⟨q, r, hq, -, q₁, he, hhead, -⟩
    obtain rfl := boot_refines.unique hq
    obtain rfl := (Prod.mk.inj (Option.some.inj he)).1
    cases hhead
  obtain ⟨s₁, hs₁⟩ : ∃ s₁, s₁ = (Sched.boot.step (.sleep 1 false)).toOption.getD Sched.empty :=
    ⟨_, rfl⟩
  obtain ⟨s₂, hs₂⟩ : ∃ s₂, s₂ = (s₁.step .yield).toOption.getD Sched.empty := ⟨_, rfl⟩
  have hstep : Sched.boot.step (.sleep (1 : ℕ) false) = .ok s₁ := by rw [hs₁]; rfl
  have hyield : s₁.step .yield = .ok s₂ := by rw [hs₂, hs₁]; rfl
  have hrest : Rests 1 (⟨Clock.atBoot, s₁⟩, 0) (.op .yield) (⟨Clock.atBoot, s₂⟩, 0) := by
    refine ⟨⟨by simp, rfl, hyield⟩, ⟨[0, 1], ?_, by decide⟩, ?_, rfl⟩
    · rw [hs₂, hs₁]
      exact ⟨rfl, rfl, rfl⟩
    · rintro op ⟨⟩
      exact not_wrapsTo_yield (by rw [hs₁]; decide)
  obtain ⟨hmark, -, hwake⟩ := @sleep_measured ⟨Clock.atBoot, s₂⟩ 1 0 0 1 Sched.boot s₁ Clock.atBoot
    false ⟨none, true, 0⟩ Reach.start rfl (by decide) hstep hwraps rfl (.step .start hrest)
    (by decide) (by decide)
  exact ⟨s₁, s₂, hstep, hyield, hmark, fun f x' hx => (hwake f x' hx).1.2 (by decide)⟩

end Ticker

end Bgox
