import Bgox.Interrupts
import Bgox.Pic

/-!
# Which interrupts are taken

Whatever state the controllers were in, `pic_init` and `mask_init` let the timer and the keyboard
through and nothing else, with the vectors 32 and 33.  No interrupt of the two is lost, or taken
twice: what is taken is what two flags say (`taken_eq`).
-/

namespace Bgox

/-- The two devices: whether they wait for an interrupt. -/
structure Pending where
  timer : Bool
  keyboard : Bool

namespace Pending

def step (p : Pending) : Pics.Event → Pending × Option ℕ
  | .raise line =>
    (⟨p.timer || line == 0, p.keyboard || line == 1⟩, none)
  | .take =>
    if p.timer then (⟨false, p.keyboard⟩, some 32)
    else if p.keyboard then (⟨false, false⟩, some 33)
    else (p, none)

def taken (p : Pending) : List Pics.Event → List ℕ
  | [] => []
  | e :: es => (p.step e).2.toList ++ taken (p.step e).1 es

theorem mem_vectors {v : ℕ} : ∀ {p : Pending} (es : List Pics.Event), v ∈ p.taken es → v ∈ vectors
  | _, [], h => absurd h (by simp [taken])
  | p, e :: es, h => by
    rw [taken, List.mem_append] at h
    rcases h with h | h
    · cases e with
      | raise => exact absurd h (by simp [step])
      | take =>
        rw [step] at h
        split_ifs at h <;> simp at h <;> subst h <;> decide
    · exact mem_vectors es h

end Pending

namespace Pics

variable {s : Pics} {p : Pending}

/-- The controllers between two interrupts. -/
structure Serves (s : Pics) (p : Pending) : Prop where
  base : s.master.base = 32
  imr : s.master.imr = 0xfc
  isr : s.master.isr = fun _ => false
  cascade : s.master.cascade = 4
  autoEoi : s.master.autoEoi = false
  slaveImr : s.slave.imr = 0xff
  slaveIsr : s.slave.isr = fun _ => false
  timer : s.master.irr 0 = p.timer
  keyboard : s.master.irr 1 = p.keyboard

/-- From any state. -/
theorem serves_init (s : Pics) : Serves s.picInit.maskInit ⟨false, false⟩ := by
  constructor <;> rfl

theorem Serves.ready (h : Serves s p) : ∀ i < 8, s.wired.ready i
    = if i = 0 then p.timer else if i = 1 then p.keyboard else false := by
  have hopen : ∀ i < 8, Nat.testBit 0xfc i = decide (2 ≤ i) := by decide
  intro i hi
  simp only [I8259.ready, wired, h.imr, h.isr, hopen i hi]
  rcases i with _ | _ | i
  · simp [h.timer]
  · simp [h.keyboard]
  · simp

/-- The first of the two lines that asks. -/
theorem Serves.request (h : Serves s p) :
    s.wired.request = if p.timer then some 0 else if p.keyboard then some 1 else none := by
  rw [I8259.request, show List.range 8 = [0, 1, 2, 3, 4, 5, 6, 7] from rfl]
  simp (disch := decide) only [List.find?_cons, List.find?_nil, h.ready]
  rcases p.timer with _ | _
  · rcases p.keyboard with _ | _ <;> rfl
  · rfl

/-- Nothing is being served: there is nothing to end. -/
theorem command_eoi_none {c : I8259} (h : c.isr = fun _ => false) : c.command 0x20 = c := by
  have hnone : (List.range 8).find? c.isr = none := by
    rw [h]
    rfl
  simp only [I8259.command, hnone]
  rfl

theorem command_eoi {c : I8259} {i : ℕ} (hi : i < 8)
    (h : c.isr = Function.update (fun _ => false) i true) :
    c.command 0x20 = { c with isr := fun _ => false } := by
  have hfirst : ∀ i < 8, (List.range 8).find? (Function.update (fun _ => false) i true)
      = some i := by decide
  have hend : Function.update c.isr i false = fun _ => false := by
    rw [h, Function.update_idem]
    exact Function.update_eq_self i _
  simp only [I8259.command, h, hfirst i hi]
  rw [← h, hend]
  rfl

/-- A line of the master has been served, and its interrupt ended. -/
theorem Serves.eoi (h : Serves s p) {i : ℕ} (hi : i < 8) :
    ({ s with master := s.wired.serve i } : Pics).eoi
      = { s with master := { s.wired with irr := Function.update s.wired.irr i false } } := by
  have hisr : (s.wired.serve i).isr = Function.update (fun _ => false) i true := by
    simp [I8259.serve, wired, h.autoEoi, h.isr]
  have hmaster := command_eoi hi hisr
  have hslave := command_eoi_none h.slaveIsr
  have houtb : ({ s with master := s.wired.serve i } : Pics).eoi
      = ⟨(s.wired.serve i).command 0x20, s.slave.command 0x20⟩ := rfl
  rw [houtb, hmaster, hslave]
  simp only [I8259.serve, wired, h.isr]

/-- An interrupt of the master's own lines is taken. -/
theorem Serves.take (h : Serves s p) {i : ℕ} (hi : i < 2) (hreq : s.wired.request = some i) :
    s.step .take =
      ({ s with master := { s.wired with irr := Function.update s.wired.irr i false } },
        some (32 + i)) := by
  have hcascade : s.wired.cascade.testBit i = false := by
    have hown : ∀ i < 2, Nat.testBit 4 i = false := by decide
    exact h.cascade ▸ hown i hi
  have hack : s.acknowledge = some ({ s with master := s.wired.serve i }, 32 + i) := by
    have hbase : s.wired.base = 32 := h.base
    simp [acknowledge, hreq, hcascade, hbase]
  rw [Pics.step, hack]
  simp only [h.eoi (show i < 8 by omega)]

theorem Serves.setIrr (h : Serves s p) {irr : ℕ → Bool} {p' : Pending}
    (htimer : irr 0 = p'.timer) (hkeyboard : irr 1 = p'.keyboard) :
    Serves { s with master := { s.master with irr } } p' :=
  { h with timer := htimer, keyboard := hkeyboard }

theorem Serves.raise (h : Serves s p) (line : ℕ) :
    Serves (s.step (.raise line)).1 (p.step (.raise line)).1 := by
  simp only [Pics.step, Pending.step]
  split_ifs with hline
  · refine h.setIrr ?_ ?_
    · by_cases h0 : line = 0
      · simp [h0]
      · simp [h0, Function.update_of_ne (Ne.symm h0), h.timer]
    · by_cases h1 : line = 1
      · simp [h1]
      · simp [h1, Function.update_of_ne (Ne.symm h1), h.keyboard]
  · have h0 : line ≠ 0 := by omega
    have h1 : line ≠ 1 := by omega
    exact { h with timer := by simp [h0, h.timer], keyboard := by simp [h1, h.keyboard] }

theorem Serves.step (h : Serves s p) (e : Event) :
    Serves (s.step e).1 (p.step e).1 ∧ (s.step e).2 = (p.step e).2 := by
  cases e with
  | raise line => exact ⟨h.raise line, rfl⟩
  | take =>
    have hreq := h.request
    by_cases htimer : p.timer = true
    · rw [if_pos htimer] at hreq
      rw [h.take (by decide) hreq, Pending.step, if_pos htimer]
      exact ⟨h.setIrr rfl h.keyboard, rfl⟩
    · rw [if_neg htimer] at hreq
      by_cases hkeyboard : p.keyboard = true
      · rw [if_pos hkeyboard] at hreq
        rw [h.take (by decide) hreq, Pending.step, if_neg htimer, if_pos hkeyboard]
        refine ⟨h.setIrr (h.timer.trans (by simpa using htimer)) rfl, rfl⟩
      · rw [if_neg hkeyboard] at hreq
        have hack : s.acknowledge = none := by simp [acknowledge, hreq]
        rw [Pending.step, if_neg htimer, if_neg hkeyboard, Pics.step, hack]
        exact ⟨h, rfl⟩

theorem Serves.taken : ∀ {s : Pics} {p : Pending} (es : List Event), Serves s p →
    s.taken es = p.taken es
  | _, _, [], _ => rfl
  | s, p, e :: es, h => by
    obtain ⟨hnext, hvec⟩ := h.step e
    rw [Pics.taken, Pending.taken, hvec, Serves.taken es hnext]

/-- From whatever state, the timer and the keyboard get through in the order of their lines, each
interrupt once, and no other device does; there is a routine for each vector. -/
theorem taken_eq (s : Pics) (es : List Event) :
    s.picInit.maskInit.taken es = Pending.taken ⟨false, false⟩ es ∧
      ∀ v ∈ s.picInit.maskInit.taken es, v ∈ vectors := by
  have heq := Serves.taken es (serves_init s)
  refine ⟨heq, fun v hv => ?_⟩
  rw [heq] at hv
  exact Pending.mem_vectors es hv

end Pics

end Bgox
