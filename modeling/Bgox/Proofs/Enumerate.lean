import Mathlib.Data.List.Nodup
import Mathlib.Data.Nat.Find
import Bgox.Proofs.Transfer

/-!
# `enumerate_pci`

A bus is left at its first controller, whether there is a disk or not, and the counter of the loop
over the buses is a byte, so that the loop ends only at a disk that was found
(`exists_of_enumeratePci`).
-/

namespace Bgox.Pci

open Loop (Settles settles_const settles_run)

variable {m : Machine} {b d turns : ℕ} {addr : UInt64} {seen : Visits}

/-! ## Probing -/

theorem setBits_settles (port : HbaPort) (now : ℕ) : Settles fun n => setBits port n now :=
  (settles_run _ now).bind fun now => settles_run _ now

theorem transfer_settles (w : Bool) (command : UInt8) (abar : HbaMem) (port : HbaPort)
    (startl starth count : UInt32) (buf : UInt64) (now : ℕ) :
    Settles fun n => (transfer w command abar port startl starth count buf n now).2 := by
  simp only [transfer]
  rcases findCmdslot abar port now with _ | slot
  · exact settles_const _
  · refine Settles.bind ((settles_run _ _).bind fun now => settles_run _ now) fun now => ?_
    rcases spinLoop port 1000000 now with ⟨_ | _, now⟩
    · exact settles_run _ now
    · exact settles_const _

theorem initWrite_settles (abar : HbaMem) (now : ℕ) : Settles fun n => initWrite abar n now := by
  refine Settles.bind ((settles_run _ now).bind fun now => settles_run _ now) fun now => ?_
  refine (setBits_settles _ now).bind fun now => ?_
  refine (transfer_settles _ _ _ _ _ _ _ _ now).bind fun r => ?_
  refine (setBits_settles _ _).bind fun now => ?_
  exact (transfer_settles _ _ _ _ _ _ _ _ now).bind fun r => settles_const _

/-- Whether there is a disk does not depend on how long one waits for it. -/
theorem portLoop_cases (abar : HbaMem) : ∀ left pi i,
    (∀ turns, portLoop abar turns left pi i = some (-1)) ∨
    ∀ turns, portLoop abar turns left pi i = (initWrite abar turns 0).map fun _ => 1
  | 0, _, _ => .inl fun _ => rfl
  | left + 1, pi, i => by
    simp only [portLoop]
    split_ifs
    · refine .inr fun turns => ?_
      rcases initWrite abar turns 0 with _ | now
      · rfl
      · rfl
    · exact portLoop_cases abar left _ _

theorem probePort_settles (abar : HbaMem) : Settles fun n => probePort abar n := by
  rcases portLoop_cases abar 32 abar.pi 0 with hno | hdisk
  · simp only [probePort, hno]
    exact settles_const _
  · simp only [probePort, hdisk, Option.map_eq_bind]
    exact (initWrite_settles abar 0).bind fun _ => settles_const _

theorem probePort_ret (abar : HbaMem) {ret : ℤ} (h : probePort abar turns = some ret) :
    ret = -1 ∨ ret = 1 := by
  rcases portLoop_cases abar 32 abar.pi 0 with hno | hdisk
  · rw [probePort, hno] at h
    exact .inl (Option.some.inj h).symm
  · rw [probePort, hdisk, Option.map_eq_some_iff] at h
    obtain ⟨_, -, rfl⟩ := h
    exact .inr rfl

theorem probePort_neg (abar : HbaMem) (h : probePort abar turns = some (-1)) (turns' : ℕ) :
    probePort abar turns' = some (-1) := by
  rcases portLoop_cases abar 32 abar.pi 0 with hno | hdisk
  · exact hno turns'
  · rw [probePort, hdisk, Option.map_eq_some_iff] at h
    obtain ⟨_, -, hret⟩ := h
    exact absurd hret (by decide)

/-- A disk that is ready is found. -/
example : probePort readyHba 1 = some 1 := by decide

/-! ## A bus -/

/-- The first controller of a bus. -/
structure Controller (m : Machine) (b d : ℕ) (addr : UInt64) : Prop where
  lt : d < DEVICE_NUM
  check : checkDevice m (.ofNat b) (.ofNat d) = some addr
  first : ∀ d' < d, checkDevice m (.ofNat b) (.ofNat d') = none

/-- The bus of a later round. -/
theorem Controller.round (h : Controller m (b + BUS_NUM) d addr) : Controller m b d addr := by
  have hbus : UInt8.ofNat (b + BUS_NUM) = UInt8.ofNat b := by
    rw [UInt8.ofNat_add]
    exact UInt8.add_zero _
  exact ⟨h.lt, hbus ▸ h.check, hbus ▸ h.first⟩

theorem controller_cases (m : Machine) (b : ℕ) :
    (∀ d < DEVICE_NUM, checkDevice m (.ofNat b) (.ofNat d) = none) ∨
      ∃ d addr, Controller m b d addr := by
  by_cases h : ∃ d, d < DEVICE_NUM ∧ ∃ addr, checkDevice m (.ofNat b) (.ofNat d) = some addr
  · classical
    obtain ⟨hlt, addr, hcheck⟩ := Nat.find_spec h
    refine .inr ⟨Nat.find h, addr, hlt, hcheck, fun d' hd' => ?_⟩
    have hmin := Nat.find_min h hd'
    rcases hnone : checkDevice m (.ofNat b) (.ofNat d') with _ | addr'
    · rfl
    · exact absurd ⟨Nat.lt_trans hd' hlt, addr', hnone⟩ hmin
  · refine .inl fun d hd => ?_
    rcases hnone : checkDevice m (.ofNat b) (.ofNat d) with _ | addr
    · rfl
    · exact absurd ⟨d, hd, addr, hnone⟩ h

/-- The first `n` slots of a bus. -/
def visits (b n : ℕ) : Visits := (List.range n).map fun d => (.ofNat b, .ofNat d)

theorem visits_succ (b n : ℕ) : visits b (n + 1) = visits b n ++ [(.ofNat b, .ofNat n)] := by
  simp [visits, List.range_succ]

theorem toNat_bus (h : b < BUS_NUM) : (UInt8.ofNat b).toNat = b := UInt8.toNat_ofNat_of_lt h

theorem toNat_slot (h : d < DEVICE_NUM) : (UInt8.ofNat d).toNat = d :=
  toNat_bus (Nat.lt_trans h (by decide))

theorem slotLoop_skip (seen : Visits) : ∀ {n : ℕ}, n ≤ DEVICE_NUM →
    (∀ d < n, checkDevice m (.ofNat b) (.ofNat d) = none) →
      slotLoop m turns (.ofNat b) 0 seen
        = slotLoop m turns (.ofNat b) (.ofNat n) (seen ++ visits b n)
  | 0, _, _ => by simp [visits]
  | n + 1, hle, hnone => by
    rw [slotLoop_skip seen (Nat.le_of_succ_le hle) fun d hd => hnone d (Nat.lt_succ_of_lt hd),
      slotLoop, toNat_slot hle, if_pos (Nat.lt_of_succ_le hle), hnone n (Nat.lt_succ_self n),
      visits_succ, List.append_assoc]
    simp only [UInt8.ofNat_add]
    rfl

/-- The first controller of the bus, if there is one, has no disk. -/
def Quiet (m : Machine) (turns b : ℕ) : Prop :=
  ∀ d addr, Controller m b d addr → probePort (m.hba addr) turns = some (-1)

theorem slotLoop_controller (h : Controller m b d addr) (seen : Visits) :
    slotLoop m turns (.ofNat b) 0 seen = (probePort (m.hba addr) turns).map
      fun ret => (decide (0 < ret), .ofNat d, seen ++ visits b (d + 1)) := by
  rw [slotLoop_skip seen (Nat.le_of_lt h.lt) h.first, slotLoop, toNat_slot h.lt, if_pos h.lt,
    h.check, visits_succ, List.append_assoc]
  dsimp only
  rcases probePort (m.hba addr) turns with _ | ret
  · rfl
  · rfl

theorem slotLoop_none (h : ∀ d < DEVICE_NUM, checkDevice m (.ofNat b) (.ofNat d) = none)
    (seen : Visits) : slotLoop m turns (.ofNat b) 0 seen
      = some (false, .ofNat DEVICE_NUM, seen ++ visits b DEVICE_NUM) := by
  rw [slotLoop_skip seen (Nat.le_refl _) h, slotLoop, if_neg (by decide)]

theorem slotLoop_quiet (h : Quiet m turns b) (seen : Visits) : ∃ j n, n ≤ DEVICE_NUM ∧
    slotLoop m turns (.ofNat b) 0 seen = some (false, j, seen ++ visits b n) := by
  rcases controller_cases m b with hnone | ⟨d, addr, hctrl⟩
  · exact ⟨_, DEVICE_NUM, Nat.le_refl _, slotLoop_none hnone seen⟩
  · refine ⟨.ofNat d, d + 1, hctrl.lt, ?_⟩
    rw [slotLoop_controller hctrl, h d addr hctrl]
    rfl

/-- What becomes of a bus: it is passed by, or the search ends on it or does not come to an end. -/
theorem bus_cases (m : Machine) (turns b : ℕ) : Quiet m turns b ∨ ∃ d addr, Controller m b d addr ∧
    (probePort (m.hba addr) turns = some 1 ∨ probePort (m.hba addr) turns = none) := by
  by_cases hquiet : Quiet m turns b
  · exact .inl hquiet
  · simp only [Quiet, not_forall] at hquiet
    obtain ⟨d, addr, hctrl, hne⟩ := hquiet
    refine .inr ⟨d, addr, hctrl, ?_⟩
    rcases hret : probePort (m.hba addr) turns with _ | ret
    · exact .inr rfl
    · rcases probePort_ret _ hret with rfl | rfl
      · exact absurd hret hne
      · exact .inl rfl

/-! ## The loop over the buses -/

theorem busTurn_scan (m : Machine) (turns i : ℕ) (j : UInt8) (seen : Visits) :
    busTurn m turns ⟨false, .ofNat i, j, seen⟩ = (slotLoop m turns (.ofNat i) 0 seen).map
      fun r => .inl ⟨r.1, .ofNat (i + 1), r.2.1, r.2.2⟩ := by
  have hlt : (UInt8.ofNat i).toNat < BUS_NUM := UInt8.toNat_lt _
  rw [busTurn, if_pos ⟨rfl, hlt⟩, UInt8.ofNat_add]
  rcases slotLoop m turns (.ofNat i) 0 seen with _ | r
  · rfl
  · rfl

theorem busTurn_found (i j : UInt8) (seen : Visits) :
    busTurn m turns ⟨true, i, j, seen⟩ = some (.inr ⟨true, i, j, seen⟩) := rfl

theorem slotLoop_settles (m : Machine) (b : ℕ) (seen : Visits) :
    Settles fun n => slotLoop m n (.ofNat b) 0 seen := by
  rcases controller_cases m b with hnone | ⟨d, addr, hctrl⟩
  · simp only [slotLoop_none hnone]
    exact settles_const _
  · simp only [slotLoop_controller hctrl, Option.map_eq_bind]
    exact (probePort_settles _).bind fun _ => settles_const _

theorem busTurn_settles (m : Machine) (s : Scan) : Settles fun n => busTurn m n s := by
  obtain ⟨found, i, j, seen⟩ := s
  cases found with
  | true => exact settles_const _
  | false =>
    rw [← UInt8.ofNat_toNat (x := i)]
    simp only [busTurn_scan, Option.map_eq_bind]
    exact (slotLoop_settles m _ seen).bind fun _ => settles_const _

/-- What the enumeration comes to does not change with more turns. -/
theorem enumeratePci_settles (m : Machine) : Settles fun n => enumeratePci m n :=
  Settles.bind (fun _ _ _ h => Loop.run_of_le (busTurn_settles m) h h) fun _ => settles_const _

/-- The variables between two turns: all buses up to `i` have been passed by, or the search has
ended on the last of them. -/
inductive Between (m : Machine) (turns : ℕ) : Scan → Prop
  | searching {k : ℕ} {j : UInt8} {seen : Visits} (hquiet : ∀ l < k, Quiet m turns l) :
      Between m turns ⟨false, .ofNat k, j, seen⟩
  | found {k d : ℕ} {addr : UInt64} {i j : UInt8} {seen : Visits}
      (hquiet : ∀ l < k, Quiet m turns l) (hctrl : Controller m k d addr)
      (hret : probePort (m.hba addr) turns = some 1)
      (hlast : seen.getLast? = some (.ofNat k, .ofNat d)) : Between m turns ⟨true, i, j, seen⟩

theorem Between.next {s s' : Scan} (hs : Between m turns s)
    (h : busTurn m turns s = some (.inl s')) : Between m turns s' := by
  cases hs with
  | @searching k j seen hquiet =>
    rw [busTurn_scan] at h
    rcases bus_cases m turns k with hk | ⟨d, addr, hctrl, hret | hret⟩
    · obtain ⟨j', n, -, hloop⟩ := slotLoop_quiet hk seen
      rw [hloop] at h
      obtain rfl := Sum.inl.inj (Option.some.inj h)
      refine .searching fun l hl => ?_
      rcases Nat.lt_succ_iff_lt_or_eq.1 hl with hl | rfl
      · exact hquiet l hl
      · exact hk
    · rw [slotLoop_controller hctrl, hret] at h
      obtain rfl := Sum.inl.inj (Option.some.inj h)
      exact .found hquiet hctrl hret (by simp [visits_succ])
    · rw [slotLoop_controller hctrl, hret] at h
      cases h
  | found => cases h

theorem Between.leave {s s' : Scan} (hs : Between m turns s)
    (h : busTurn m turns s = some (.inr s')) :
    ∃ k d addr, (∀ l < k, Quiet m turns l) ∧ Controller m k d addr ∧
      probePort (m.hba addr) turns = some 1 ∧ s'.seen.getLast? = some (.ofNat k, .ofNat d) := by
  cases hs with
  | searching =>
    rw [busTurn_scan] at h
    obtain ⟨_, -, hr⟩ := Option.map_eq_some_iff.1 h
    cases hr
  | @found k d addr _ _ _ hquiet hctrl hret hlast =>
    obtain rfl := Sum.inr.inj (Option.some.inj h)
    exact ⟨k, d, addr, hquiet, hctrl, hret, hlast⟩

/-- If the enumeration comes to an end, it is in the first round: a bus of the second one has been
passed by before. -/
theorem exists_of_enumeratePci {printed : Option (UInt8 × UInt8)}
    (h : enumeratePci m turns = some (printed, seen)) :
    ∃ b d addr, b < BUS_NUM ∧ (∀ l < b, Quiet m turns l) ∧ Controller m b d addr ∧
      probePort (m.hba addr) turns = some 1 ∧ seen.getLast? = some (.ofNat b, .ofNat d) := by
  obtain ⟨s, hrun, hs⟩ := Option.bind_eq_some_iff.1 h
  obtain ⟨-, rfl⟩ := Prod.mk.inj (Option.some.inj hs)
  obtain ⟨k, d, addr, hquiet, hctrl, hret, hlast⟩ :=
    Loop.run_invariant (fun _ _ => Between.next) (fun _ _ => Between.leave)
      (.searching (k := 0) nofun) hrun
  refine ⟨k, d, addr, ?_, hquiet, hctrl, hret, hlast⟩
  by_contra hge
  obtain ⟨l, rfl⟩ := Nat.exists_eq_add_of_le' (Nat.le_of_not_lt hge)
  have hneg := hquiet l (Nat.lt_add_of_pos_right (by decide)) d addr hctrl.round
  rw [hret] at hneg
  cases hneg

/-- Nothing has been seen twice, and nothing of the bus `i` or a later one at all. -/
structure Fresh (i : ℕ) (seen : Visits) : Prop where
  nodup : seen.Nodup
  lt : ∀ p ∈ seen, p.1.toNat < i

theorem Fresh.append_visits {i n : ℕ} (h : Fresh i seen) (hi : i < BUS_NUM) (hn : n ≤ DEVICE_NUM) :
    Fresh (i + 1) (seen ++ visits i n) := by
  have hbus : ∀ p ∈ visits i n, p.1.toNat = i := by
    intro p hp
    obtain ⟨d, -, rfl⟩ := List.mem_map.1 hp
    exact toNat_bus hi
  have hnodup : (visits i n).Nodup := by
    refine List.Nodup.map_on (fun d hd d' hd' heq => ?_) List.nodup_range
    have hslot := congrArg (fun p => p.2.toNat) heq
    simp only at hslot
    rwa [toNat_slot (Nat.lt_of_lt_of_le (List.mem_range.1 hd) hn),
      toNat_slot (Nat.lt_of_lt_of_le (List.mem_range.1 hd') hn)] at hslot
  refine ⟨List.nodup_append.2 ⟨h.nodup, hnodup, fun p hp q hq heq => ?_⟩, fun p hp => ?_⟩
  · have hlt := h.lt p hp
    rw [heq, hbus q hq] at hlt
    exact Nat.lt_irrefl i hlt
  · rcases List.mem_append.1 hp with hp | hp
    · exact Nat.lt_succ_of_lt (h.lt p hp)
    · exact (hbus p hp).symm ▸ Nat.lt_succ_self i

/-- The variables on the way to the bus `b`. -/
inductive Ahead (b d : ℕ) : Scan → Prop
  | searching {k : ℕ} {j : UInt8} {seen : Visits} (hk : k ≤ b) (hfresh : Fresh k seen) :
      Ahead b d ⟨false, .ofNat k, j, seen⟩
  | found {i j : UInt8} {seen : Visits} (hnodup : seen.Nodup)
      (hlast : seen.getLast? = some (.ofNat b, .ofNat d)) : Ahead b d ⟨true, i, j, seen⟩

theorem exists_run_found (hb : b < BUS_NUM) (hctrl : Controller m b d addr)
    (hret : probePort (m.hba addr) turns = some 1) (hquiet : ∀ l < b, Quiet m turns l) :
    ∃ n s, Loop.run (busTurn m turns) n ⟨false, 0, 0, []⟩ = some s ∧
      Ahead b d s ∧ s.found = true := by
  refine Loop.exists_run (P := Ahead b d)
    (fun s => if s.found then 0 else BUS_NUM - s.i.toNat) (fun s hs => ?_)
    (.searching (k := 0) (Nat.zero_le b) ⟨List.nodup_nil, nofun⟩)
  cases hs with
  | @searching k j seen hk hfresh =>
    have hkb : k < BUS_NUM := by omega
    refine .inl ?_
    rcases Nat.lt_or_eq_of_le hk with hlt | rfl
    · obtain ⟨j', n, hn, hloop⟩ := slotLoop_quiet (hquiet k hlt) seen
      refine ⟨_, by rw [busTurn_scan, hloop]; rfl,
        .searching hlt (hfresh.append_visits hkb hn), ?_⟩
      simp only [Bool.false_eq_true, if_false]
      rw [toNat_bus hkb, toNat_bus (Nat.lt_of_le_of_lt hlt hb)]
      omega
    · refine ⟨_, by rw [busTurn_scan, slotLoop_controller hctrl, hret]; rfl,
        .found (hfresh.append_visits hb hctrl.lt).nodup (by simp [visits_succ]), ?_⟩
      simp only [Bool.false_eq_true, if_false]
      rw [toNat_bus hb]
      exact Nat.sub_pos_of_lt hb
  | @found i j seen hnodup hlast => exact .inr ⟨_, busTurn_found i j seen, .found hnodup hlast, rfl⟩

/-! ## The devices -/

/-- A device that `check_device` and `probe_port` accept. -/
def Accepts (m : Machine) (b d : ℕ) : Prop :=
  ∃ addr, checkDevice m (.ofNat b) (.ofNat d) = some addr ∧
    ∃ turns ret, probePort (m.hba addr) turns = some ret ∧ 0 < ret

/-- The first of them, by bus and slot. -/
structure FirstAccepted (m : Machine) (b d : ℕ) : Prop where
  bus_lt : b < BUS_NUM
  slot_lt : d < DEVICE_NUM
  accepts : Accepts m b d
  first : ∀ b' d', d' < DEVICE_NUM → b' < b ∨ b' = b ∧ d' < d → ¬ Accepts m b' d'

/-- The enumeration comes to an end, has seen nothing twice, and has found the first device there
is. -/
def Enumerates (m : Machine) : Prop :=
  ∃ turns printed seen, enumeratePci m turns = some (printed, seen) ∧ seen.Nodup ∧
    ∀ b d, FirstAccepted m b d → printed.isSome ∧ seen.getLast? = some (.ofNat b, .ofNat d)

theorem FirstAccepted.unique {b' d' : ℕ} (h : FirstAccepted m b d) (h' : FirstAccepted m b' d') :
    b = b' ∧ d = d' := by
  by_contra hne
  have hlt : (b' < b ∨ b' = b ∧ d' < d) ∨ b < b' ∨ b = b' ∧ d < d' := by omega
  rcases hlt with hlt | hlt
  · exact h.first b' d' h'.slot_lt hlt h'.accepts
  · exact h'.first b d h.slot_lt hlt h.accepts

theorem Accepts.exists_first (hb : b < BUS_NUM) (hd : d < DEVICE_NUM) (h : Accepts m b d) :
    ∃ b' d', b' ≤ b ∧ FirstAccepted m b' d' := by
  generalize hn : DEVICE_NUM * b + d = n
  induction n using Nat.strong_induction_on generalizing b d with
  | _ n ih =>
    by_cases hfirst : ∀ b' d', d' < DEVICE_NUM → b' < b ∨ b' = b ∧ d' < d → ¬ Accepts m b' d'
    · exact ⟨b, d, Nat.le_refl b, hb, hd, h, hfirst⟩
    · push Not at hfirst
      obtain ⟨b', d', hd', hlt, h'⟩ := hfirst
      obtain ⟨b'', d'', hle, hfirst⟩ := ih (DEVICE_NUM * b' + d')
        (by simp only [DEVICE_NUM] at *; omega) (by omega) hd' h' rfl
      exact ⟨b'', d'', by omega, hfirst⟩

theorem enumeratePci_eq_none (h : ∀ b < BUS_NUM, ∀ d < DEVICE_NUM, ¬ Accepts m b d)
    (turns : ℕ) : enumeratePci m turns = none := by
  rcases hrun : enumeratePci m turns with _ | ⟨printed, seen⟩
  · rfl
  · obtain ⟨b, d, addr, hb, -, hctrl, hret, -⟩ := exists_of_enumeratePci hrun
    exact absurd ⟨addr, hctrl.check, turns, 1, hret, by decide⟩ (h b hb d hctrl.lt)

/-- `enumerate_pci` is right exactly if there is a disk, none of the slots in front of it on its
bus has a controller, and the first controllers of the buses in front of it have no disks. -/
theorem enumerates_iff (m : Machine) : Enumerates m ↔ ∃ b d, FirstAccepted m b d ∧
    (∀ d' < d, checkDevice m (.ofNat b) (.ofNat d') = none) ∧
    ∀ b' < b, ∀ d' addr, Controller m b' d' addr →
      ∃ turns, probePort (m.hba addr) turns = some (-1) := by
  constructor
  · rintro ⟨turns, printed, seen, hrun, -, hstop⟩
    obtain ⟨b, d, addr, hb, hquiet, hctrl, hret, hlast⟩ := exists_of_enumeratePci hrun
    have haccepts : Accepts m b d := ⟨addr, hctrl.check, turns, 1, hret, by decide⟩
    obtain ⟨b', d', -, hfirst⟩ := haccepts.exists_first hb hctrl.lt
    have hsame := (hstop b' d' hfirst).2.symm.trans hlast
    obtain ⟨hbus, hslot⟩ := Prod.mk.inj (Option.some.inj hsame)
    obtain rfl : b' = b := by rw [← toNat_bus hfirst.bus_lt, hbus, toNat_bus hb]
    obtain rfl : d' = d := by rw [← toNat_slot hfirst.slot_lt, hslot, toNat_slot hctrl.lt]
    exact ⟨b', d', hfirst, hctrl.first, fun l hl d' addr' hctrl' =>
      ⟨turns, hquiet l hl d' addr' hctrl'⟩⟩
  · rintro ⟨b, d, hfirst, hslots, hbuses⟩
    obtain ⟨addr, hcheck, turns, ret, hret, hpos⟩ := hfirst.accepts
    obtain rfl : ret = 1 := by
      rcases probePort_ret _ hret with rfl | rfl
      · exact absurd hpos (by decide)
      · rfl
    have hquiet : ∀ l < b, Quiet m turns l := by
      intro l hl d' addr' hctrl
      obtain ⟨turns', hneg⟩ := hbuses l hl d' addr' hctrl
      exact probePort_neg _ hneg turns
    obtain ⟨n, s, hrun, hs, hfound⟩ := exists_run_found hfirst.bus_lt
      ⟨hfirst.slot_lt, hcheck, hslots⟩ hret hquiet
    -- enough turns for the waits and for the buses
    have hrun' := Loop.run_of_le (busTurn_settles m) (Nat.le_max_left turns n)
      (Nat.le_max_right turns n) hrun
    cases hs with
    | searching => cases hfound
    | @found i j seen hnodup hlast =>
      refine ⟨max turns n, some (i - 1, j - 1), seen, Option.bind_eq_some_iff.2 ⟨_, hrun', rfl⟩,
        hnodup, fun b' d' hfirst' => ⟨rfl, ?_⟩⟩
      obtain ⟨rfl, rfl⟩ := hfirst.unique hfirst'
      exact hlast

/-- No device answers. -/
def noDevice : Machine where
  inl _ := 0xFFFFFFFF
  hba _ := readyHba

/-- Then the counter of the buses never comes to 256. -/
theorem enumeratePci_noDevice :
    (∀ turns, enumeratePci noDevice turns = none) ∧ ¬ Enumerates noDevice := by
  have hnone : ∀ turns, enumeratePci noDevice turns = none := by
    refine enumeratePci_eq_none fun b _ d _ => ?_
    rintro ⟨addr, hcheck, -⟩
    have hword : (0xFFFFFFFF >>> (((0 : UInt8) &&& 2).toUInt32 * 8)).toUInt16 = 0xFFFF := by decide
    have hvendor : pciConfigReadWord noDevice (.ofNat b) (.ofNat d) 0 0 = 0xFFFF := hword
    rw [checkDevice, if_pos hvendor] at hcheck
    cases hcheck
  refine ⟨hnone, ?_⟩
  rintro ⟨turns, printed, seen, hrun, -⟩
  rw [hnone] at hrun
  cases hrun

end Bgox.Pci
