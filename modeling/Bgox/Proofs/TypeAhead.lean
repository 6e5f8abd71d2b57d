import Bgox.Proofs.Line

/-!
# Characters that wait to be read

What `read` and `gets` do with the characters that have been typed.  `read` copies all of them,
clears the buffer, and only then takes its length as the result, so that it reports nothing unless
there is nothing (`read_delivers_iff`).

The number of characters that wait is counted from the events alone (`Event.after`); `buf_idx` is
that number as long as there is room for what the handler stores, and the handler leaves the buffer
as soon as there is none (`type_ahead_iff`).
-/

namespace Bgox

open Run (bind_eq_ok)

namespace Keyboard

variable {s s' : Keyboard} {L : List UInt8} {n : ℕ}

/-! ## What `read` delivers -/

/-- The string in the buffer, with its length in `buf_idx`. -/
structure Content (s : Keyboard) (L : List UInt8) : Prop where
  idx : s.bufIdx = L.length
  short : L.length < 1024
  nonzero : 0 ∉ L
  buf : ∀ i (h : i < L.length), s.charBuf i = L[i]
  stop : s.charBuf L.length = 0

theorem clear_content (s : Keyboard) : s.clear.Content [] :=
  ⟨rfl, by decide, by simp, by simp, rfl⟩

theorem Content.strLen_eq (hs : s.Content L) :
    strLen ((List.range 1024).map s.charBuf) = .ok L.length ∧
      ((List.range 1024).map s.charBuf).take L.length = L := by
  obtain ⟨t, hsplit⟩ := map_range_eq hs.short hs.buf hs.stop
  rw [hsplit, strLen_append hs.nonzero]
  exact ⟨rfl, List.take_left⟩

theorem Content.gets_eq (hs : s.Content L) : ∃ s', s.gets = .ok (L, s') :=
  Keyboard.gets_eq hs.short hs.nonzero hs.buf hs.stop

/-- All that is there is copied, and the result is 0. -/
theorem Content.read_eq (hs : s.Content L) : s.read = .ok (L, 0, s.clear) := by
  obtain ⟨hlen, htake⟩ := hs.strLen_eq
  simp only [read, hlen, s.clear_content.strLen_eq.1, bind, Except.bind, htake]
  rfl

/-- For a request of `n` bytes the first `n` bytes are stored and their number is returned, and the
other ones stay for the next call. -/
def Delivers (s : Keyboard) (L : List UInt8) (n : ℕ) : Prop :=
  ∃ s', s.read = .ok (L.take n, min n L.length, s') ∧ ∃ s'', s'.gets = .ok (L.drop n, s'')

theorem read_delivers_iff (hs : s.Content L) (n : ℕ) : s.Delivers L n ↔ L = [] := by
  constructor
  · rintro ⟨s', hread, -⟩
    rw [hs.read_eq] at hread
    simp only [Except.ok.injEq, Prod.mk.injEq] at hread
    obtain ⟨htake, hmin, -⟩ := hread
    rcases Nat.eq_zero_or_pos n with rfl | hn
    · simpa using htake
    · exact List.eq_nil_of_length_eq_zero (by omega)
  · rintro rfl
    exact ⟨s.clear, by simpa using hs.read_eq, by simpa using s.clear_content.gets_eq⟩

/-- The keys `a`, `b` and Enter. -/
theorem exists_typed : ∃ s, start.run [30, 48, 0x1c] = .ok s ∧ s.Content [97, 98, 10] ∧
    s.newLine = true := by
  obtain ⟨s, hrun⟩ : ∃ s, start.run [30, 48, 0x1c] = .ok s := ⟨_, rfl⟩
  refine ⟨s, hrun, ?_⟩
  obtain rfl := Except.ok.inj hrun
  refine ⟨⟨rfl, by decide, by decide, fun i hi => ?_, rfl⟩, rfl⟩
  match i, hi with
  | 0, _ => rfl
  | 1, _ => rfl
  | 2, _ => rfl

/-- Nothing is delivered before a key is pressed; a line is not. -/
theorem read_delivers_typed : start.Delivers [] 0 ∧
    ∃ s, start.run [30, 48, 0x1c] = .ok s ∧ ¬ s.Delivers [97, 98, 10] 2 := by
  have hs : start.Content [] := ⟨rfl, by decide, by simp, by simp, rfl⟩
  obtain ⟨s, hrun, htyped, -⟩ := exists_typed
  exact ⟨(read_delivers_iff hs 0).2 rfl, s, hrun, mt (read_delivers_iff htyped 2).1 (by decide)⟩

/-- A request of two bytes for that line. -/
theorem read_loses_line : ∃ s, start.run [30, 48, 0x1c] = .ok s ∧ s.Content [97, 98, 10] ∧
    s.Polled 2 ∧ s.read = .ok ([97, 98, 10], 0, s.clear) ∧ ¬ s.Delivers [97, 98, 10] 2 := by
  obtain ⟨s, hrun, hs, hline⟩ := exists_typed
  refine ⟨s, hrun, hs, Or.inr (Or.inl hline), hs.read_eq, ?_⟩
  rintro ⟨s', hread, -⟩
  rw [hs.read_eq] at hread
  simp at hread

/-! ## The room in the buffer -/

/-- Keys that have a character stored. -/
def stores (key : ℕ) : Bool :=
  key = 0x1d || key = 0x1c || key < 0x52 && key ≠ 0x2a && key ≠ 0x0e

namespace Event

/-- How many characters wait after an event. -/
def after (k : ℕ) : Event → ℕ
  | .key code => if code = 0x0e then k - 1 else if stores code then k + 1 else k
  | .gets | .read _ => 0

/-- There is room for what is stored.  Backspace stores a 0 if there is a character. -/
def Room (k : ℕ) : Event → Prop
  | .key code => stores code = true ∨ code = 0x0e ∧ 0 < k → k < 1024
  | .gets | .read _ => True

/-- At every event of a run, if `k` characters wait before it. -/
def Fits : ℕ → List Event → Prop
  | _, [] => True
  | k, e :: es => e.Room k ∧ Fits (e.after k) es

end Event

variable {e : Event} {k : ℕ}

/-- What an event does to `buf_idx`, which is `k` before it. -/
structure Counts (s : Keyboard) (k : ℕ) (e : Event) : Prop where
  room : e.Room k → ∃ s', s.event e = .ok s' ∧ s'.bufIdx = e.after k
  full : ¬ e.Room k → s.event e = .error .wild

theorem put_error (hk : s.bufIdx = k) (hfull : ¬ k < 1024) (c : UInt8) :
    s.put c = .error .wild := by
  rw [put, set, if_neg (by omega)]
  rfl

theorem irqKbHandler_stores {code : ℕ} (s : Keyboard) (h : stores code = true) :
    ∃ (s₀ : Keyboard) (c : UInt8), s₀.bufIdx = s.bufIdx ∧ s.irqKbHandler code = s₀.put c := by
  simp only [stores, Bool.or_eq_true, Bool.and_eq_true, decide_eq_true_eq] at h
  rcases h with (rfl | rfl) | ⟨⟨hlt, hshift⟩, hback⟩
  · exact ⟨{ s with ctrlOn := true, shiftOn := true }, 94, rfl, rfl⟩
  · exact ⟨{ s with newLine := true }, 10, rfl, rfl⟩
  · by_cases hctrl : code = 0x1d
    · exact ⟨{ s with ctrlOn := true, shiftOn := true }, 94, rfl, by simp [irqKbHandler, hctrl]⟩
    · by_cases henter : code = 0x1c
      · exact ⟨{ s with newLine := true }, 10, rfl, by simp [irqKbHandler, henter]⟩
      · exact ⟨s, _, rfl, irqKbHandler_key hlt (by simp [hshift, hctrl, hback, henter])⟩

theorem irqKbHandler_silent {code : ℕ} (s : Keyboard) (h : stores code = false)
    (hback : code ≠ 0x0e) : ∃ s', s.irqKbHandler code = .ok s' ∧ s'.bufIdx = s.bufIdx := by
  simp only [stores, Bool.or_eq_false_iff, decide_eq_false_iff_not] at h
  obtain ⟨⟨hctrl, henter⟩, hkey⟩ := h
  unfold irqKbHandler
  split_ifs with h1 h2 h3 h4
  · exact ⟨_, rfl, rfl⟩
  · exact ⟨_, rfl, rfl⟩
  · exact ⟨_, rfl, rfl⟩
  · simp [h1, hback] at hkey
    omega
  · exact ⟨_, rfl, rfl⟩

theorem counts_backspace (hk : s.bufIdx = k) : s.Counts k (.key 0x0e) := by
  rcases Nat.eq_zero_or_pos k with rfl | hpos
  · refine ⟨fun _ => ⟨s, by simp [event, irqKbHandler, hk], hk⟩, fun hfull => ?_⟩
    simp [Event.Room] at hfull
  · have hirq : s.event (.key 0x0e) = do
        let s ← s.set 0
        return { s with bufIdx := s.bufIdx - 1 } := by
      simp [event, irqKbHandler, show 0 < s.bufIdx by omega]
    refine ⟨fun hroom => ?_, fun hfull => ?_⟩
    · have hlt := hroom (Or.inr ⟨rfl, hpos⟩)
      refine ⟨{ s with
        charBuf := Function.update s.charBuf s.bufIdx.toNat 0
        bufIdx := s.bufIdx - 1 }, ?_, ?_⟩
      · rw [hirq, set, if_pos (by omega)]
        rfl
      · simp only [Event.after, if_pos]
        omega
    · simp only [Event.Room, Classical.not_imp] at hfull
      rw [hirq, set, if_neg (by omega)]
      rfl

theorem counts (hk : s.bufIdx = k) : ∀ e : Event, s.Counts k e
  | .gets => ⟨fun _ => ⟨s.clear, rfl, rfl⟩, fun hfull => absurd trivial hfull⟩
  | .read _ => ⟨fun _ => ⟨s.clear, rfl, rfl⟩, fun hfull => absurd trivial hfull⟩
  | .key code => by
    by_cases hback : code = 0x0e
    · rw [hback]
      exact counts_backspace hk
    · rcases hst : stores code with _ | _
      · obtain ⟨s', hirq, hidx⟩ := irqKbHandler_silent s hst hback
        refine ⟨fun _ => ⟨s', hirq, ?_⟩, fun hfull => ?_⟩
        · simp [Event.after, hback, hst, hidx, hk]
        · simp [Event.Room, hst, hback] at hfull
      · obtain ⟨s₀, c, hidx, hirq⟩ := irqKbHandler_stores s hst
        refine ⟨fun hroom => ?_, fun hfull => ?_⟩
        · have hlt := hroom (Or.inl hst)
          refine ⟨_, hirq.trans (put_eq (by omega) (by omega) c), ?_⟩
          simp [Event.after, hback, hst, hidx, hk]
        · simp only [Event.Room, Classical.not_imp] at hfull
          exact hirq.trans (put_error (hidx.trans hk) hfull.2 c)

/-! ## Runs -/

theorem events_cons {es : List Event} (h : s.event e = .ok s') :
    s.events (e :: es) = s'.events es := by
  rw [events, List.foldlM_cons, h]
  rfl

/-- A run with room for every character. -/
theorem events_fits : ∀ {es : List Event} {s : Keyboard} {k : ℕ}, s.bufIdx = k →
    Event.Fits k es → ∃ s', s.events es = .ok s' ∧ 0 ≤ s'.bufIdx
  | [], s, k, hk, _ => ⟨s, rfl, by omega⟩
  | e :: es, s, k, hk, hfits => by
    obtain ⟨s', he, hk'⟩ := (counts hk e).room hfits.1
    obtain ⟨s'', hes, hle⟩ := events_fits hk' hfits.2
    exact ⟨s'', (events_cons he).trans hes, hle⟩

theorem Event.Fits.of_prefix : ∀ {pre es : List Event} {k : ℕ}, pre <+: es → Event.Fits k es →
    Event.Fits k pre
  | [], _, _, _, _ => trivial
  | e :: pre, es, k, hpre, hfits => by
    obtain ⟨t, rfl⟩ := hpre
    exact ⟨hfits.1, Event.Fits.of_prefix (List.prefix_append pre t) hfits.2⟩

/-- Without room, the handler stores outside of the buffer. -/
theorem events_full : ∀ {es : List Event} {s : Keyboard} {k : ℕ}, s.bufIdx = k →
    ¬ Event.Fits k es → s.events es = .error .wild
  | [], s, k, _, hfull => absurd trivial hfull
  | e :: es, s, k, hk, hfull => by
    by_cases hroom : e.Room k
    · obtain ⟨s', he, hk'⟩ := (counts hk e).room hroom
      rw [events_cons he]
      exact events_full hk' fun hfits => hfull ⟨hroom, hfits⟩
    · rw [events, List.foldlM_cons, (counts hk e).full hroom]
      rfl

/-- In a run from the start no store is outside of the buffer, and `buf_idx` is never negative,
exactly if there is room whenever a character is typed or removed. -/
theorem type_ahead_iff (es : List Event) :
    (∀ pre, pre <+: es → ∃ s, start.events pre = .ok s ∧ 0 ≤ s.bufIdx) ↔ Event.Fits 0 es := by
  constructor
  · intro hall
    obtain ⟨s, hs, -⟩ := hall es (List.prefix_refl es)
    by_contra hfull
    rw [events_full (k := 0) rfl hfull] at hs
    cases hs
  · intro hfits pre hpre
    exact events_fits (k := 0) rfl (hfits.of_prefix hpre)

theorem fits_letters : ∀ (m k : ℕ), k ≤ 1024 →
    Event.Fits k (List.replicate m (.key 30)) → k + m ≤ 1024
  | 0, k, hk, _ => hk
  | m + 1, k, _, hfits => by
    have hlt : k < 1024 := hfits.1 (Or.inl (by decide))
    have := fits_letters m (k + 1) hlt hfits.2
    omega

/-- The 1025th letter is stored behind the buffer. -/
theorem type_ahead_overruns :
    start.events (List.replicate 1025 (.key 30)) = .error .wild := by
  refine events_full (k := 0) rfl fun hfits => ?_
  have := fits_letters 1025 0 (by decide) hfits
  omega

end Keyboard

end Bgox
