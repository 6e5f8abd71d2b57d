import Bgox.Clock
import Bgox.Proofs.Console
import Bgox.Proofs.Numerals

/-!
# The time on the screen

The text of the screen is in the rows 0 to 23 and the time in row 24, and neither gets into the
other's way, however ticks and output come one after the other (`run_refines`): the text is that of
a kernel without a timer, and the time that of a `Display`.

The divisor of the timer does not fit into two bytes, so that a hundred ticks take more than a
second, and the number that was shown last is behind (`shown_behind`).
-/

namespace Bgox

open Run (bind_eq_ok)

namespace Console

variable {s s' : Console} {x y : ℤ} {c : UInt8}

/-! ## The rows of text -/

/-- The rows of text and the cursor are the same. -/
structure Same (s s' : Console) : Prop where
  X : s.X = s'.X
  Y : s.Y = s'.Y
  csr : s.csr = s'.csr
  video : ∀ p, 0 ≤ p → p < 24 * 160 → s.video p = s'.video p

/-- Nothing has been stored behind the rows of text. -/
def Kept (s s' : Console) : Prop := ∀ p, 24 * 160 ≤ p → s'.video p = s.video p

theorem video_scrollUp (s : Console) {p : ℤ} (hp : 0 ≤ p) : s.scrollUp.video p =
    if p < 23 * 160 then s.video (p + 160) else if p < 24 * 160 then 0 else s.video p := by
  rw [scrollUp, moveCsr_video, video_scrollRows s 23 hp]
  simp

theorem Same.scrollUp (h : Same s s') : Same s.scrollUp s'.scrollUp where
  X := by simp only [Console.scrollUp, moveCsr]
  Y := by simp only [Console.scrollUp, moveCsr]
  csr := by simp only [Console.scrollUp, moveCsr]
  video p hp hlt := by
    rw [video_scrollUp s hp, video_scrollUp s' hp]
    split_ifs
    · exact h.video _ (by omega) (by omega)
    · rfl

theorem Same.store (h : Same s s') (p : ℤ) (c : UInt8) : Same (s.store p c) (s'.store p c) where
  X := h.X
  Y := h.Y
  csr := h.csr
  video q hq hlt := by
    rw [store_video, store_video, Function.update_apply, Function.update_apply, h.video q hq hlt]

theorem Same.nextRow (h : Same s s') (y : ℤ) :
    Same (s.nextRow y).1 (s'.nextRow y).1 ∧ (s.nextRow y).2 = (s'.nextRow y).2 := by
  simp only [Console.nextRow]
  split_ifs
  · exact ⟨h.scrollUp, rfl⟩
  · exact ⟨h, rfl⟩

/-- The variables of the loop of `print_seq` are the same. -/
def SameAt (st st' : Console × ℤ × ℤ) : Prop := Same st.1 st'.1 ∧ st.2 = st'.2

theorem SameAt.printChar {st st' : Console × ℤ × ℤ} (h : SameAt st st') (c : UInt8) :
    SameAt (printChar c st) (printChar c st') := by
  obtain ⟨s, x, y⟩ := st
  obtain ⟨s', x', y'⟩ := st'
  obtain ⟨h, hxy⟩ := h
  obtain ⟨rfl, rfl⟩ := Prod.mk.inj hxy
  obtain ⟨hrow, hy⟩ := h.nextRow y
  simp only [Console.printChar]
  split_ifs
  · exact ⟨hrow, by rw [hy]⟩
  · exact ⟨h, rfl⟩
  · rw [hy]
    exact ⟨hrow.store _ c, rfl⟩
  · exact ⟨h.store _ c, rfl⟩

theorem SameAt.printLoop : ∀ (seq : List UInt8) {st st' : Console × ℤ × ℤ}, SameAt st st' →
    SameAt (printLoop seq st) (printLoop seq st')
  | [], _, _, h => h
  | c :: seq, _, _, h => by
    simp only [Console.printLoop]
    split_ifs
    · exact h
    · exact SameAt.printLoop seq (h.printChar c)

theorem Same.moveCsr (h : Same s s') : Same s.moveCsr s'.moveCsr where
  X := h.X
  Y := h.Y
  csr := by simp only [Console.moveCsr, h.X, h.Y]
  video := h.video

theorem Same.printSeq (h : Same s s') (seq : List UInt8) :
    Same (s.printSeq seq (-1) (-1)) (s'.printSeq seq (-1) (-1)) := by
  have hstart : SameAt (s, s.X, s.Y) (s', s'.X, s'.Y) := ⟨h, by rw [h.X, h.Y]⟩
  obtain ⟨hsame, hxy⟩ := hstart.printLoop seq
  simp only [Console.printSeq, if_true, true_or]
  refine Same.moveCsr { hsame with X := ?_, Y := ?_ }
  · exact congrArg Prod.fst hxy
  · exact congrArg Prod.snd hxy

theorem Same.backspace (h : Same s s') : Same s.backspace s'.backspace := by
  have hleft : Same { s with X := s.X - 2 } { s' with X := s'.X - 2 } :=
    { h with X := by simp only [h.X] }
  have hprint := hleft.printSeq (Keyboard.chars [' '])
  exact Same.moveCsr { hprint with X := by simp only [hprint.X] }

theorem same_clearScreen (s s' : Console) : Same s.clearScreen s'.clearScreen where
  X := by simp only [Console.clearScreen, moveCsr]
  Y := by simp only [Console.clearScreen, moveCsr]
  csr := by simp only [Console.clearScreen, moveCsr]
  video p hp hlt := by
    rw [Console.clearScreen, Console.clearScreen, moveCsr_video, moveCsr_video]
    simp only [video_clearRows s 25 hp (by omega), video_clearRows s' 25 hp (by omega)]

/-! ## The last row -/

/-- The cursor is in the rows of text. -/
structure Above (s : Console) : Prop where
  X : s.X < 160
  Y : s.Y ≤ 23

theorem kept_store {p : ℤ} (h : p < 24 * 160) : Kept s (s.store p c) := fun q hq =>
  Function.update_of_ne (by omega) _ _

theorem kept_nextRow (s : Console) (y : ℤ) : Kept s (s.nextRow y).1 ∧ (s.nextRow y).2 ≤ 23 := by
  simp only [Console.nextRow]
  split_ifs
  · refine ⟨fun p hp => ?_, Int.le_refl 23⟩
    rw [video_scrollUp s (by omega), if_neg (by omega), if_neg (by omega)]
  · exact ⟨fun _ _ => rfl, by simp only; omega⟩

theorem Kept.trans {s'' : Console} (h : Kept s s') (h' : Kept s' s'') : Kept s s'' := fun p hp =>
  (h' p hp).trans (h p hp)

theorem kept_printChar (c : UInt8) (hx : x < 160) (hy : y ≤ 23) :
    Kept s (printChar c (s, x, y)).1 ∧ (printChar c (s, x, y)).2.1 < 160 ∧
      (printChar c (s, x, y)).2.2 ≤ 23 := by
  obtain ⟨hrow, hnext⟩ := kept_nextRow s y
  simp only [Console.printChar]
  split_ifs
  · exact ⟨hrow, show (0 : ℤ) < 160 by decide, hnext⟩
  · exact ⟨fun _ _ => rfl, hx, show (0 : ℤ) ≤ 23 by decide⟩
  · exact ⟨hrow.trans (kept_store (by omega)), show (0 : ℤ) < 160 by decide, hnext⟩
  · exact ⟨kept_store (by omega), by simp only; omega, hy⟩

theorem kept_printLoop : ∀ (seq : List UInt8) {s : Console} {x y : ℤ}, x < 160 → y ≤ 23 →
    Kept s (printLoop seq (s, x, y)).1 ∧ (printLoop seq (s, x, y)).2.1 < 160 ∧
      (printLoop seq (s, x, y)).2.2 ≤ 23
  | [], _, _, _, hx, hy => ⟨fun _ _ => rfl, hx, hy⟩
  | c :: seq, s, x, y, hx, hy => by
    simp only [Console.printLoop]
    split_ifs
    · exact ⟨fun _ _ => rfl, hx, hy⟩
    · obtain ⟨hkept, hx', hy'⟩ := kept_printChar (s := s) c hx hy
      obtain ⟨hrest, hxy⟩ := kept_printLoop seq (s := (printChar c (s, x, y)).1) hx' hy'
      exact ⟨hkept.trans hrest, hxy⟩

theorem Above.printSeq (h : Above s) (seq : List UInt8) :
    Kept s (s.printSeq seq (-1) (-1)) ∧ Above (s.printSeq seq (-1) (-1)) := by
  obtain ⟨hkept, hx, hy⟩ := kept_printLoop (s := s) seq h.X h.Y
  simp only [Console.printSeq, if_true, true_or]
  exact ⟨hkept, hx, hy⟩

theorem Above.backspace (h : Above s) : Kept s s.backspace ∧ Above s.backspace := by
  have hback : Above { s with X := s.X - 2 } := ⟨by have := h.X; simp only; omega, h.Y⟩
  obtain ⟨hkept, habove⟩ := hback.printSeq (Keyboard.chars [' '])
  refine ⟨hkept, ?_, habove.Y⟩
  have hx := habove.X
  show (Console.printSeq _ _ _ _).X - 2 < 160
  omega

theorem above_clearScreen (s : Console) : Above s.clearScreen := by
  simp only [Console.clearScreen, moveCsr]
  exact ⟨show (0 : ℤ) < 160 by decide, show (0 : ℤ) ≤ 23 by decide⟩

/-! ## The time -/

theorem video_putStatic_of_le : ∀ (text : List UInt8) {s : Console} {q p : ℤ}, p ≤ q →
    (s.putStatic q text).video p = s.video p
  | [], _, _, _, _ => rfl
  | c :: text, s, q, p, h => by
    rw [putStatic, video_putStatic_of_le text (by omega)]
    exact Function.update_of_ne (by omega) _ _

theorem video_putStatic : ∀ (text : List UInt8) {s : Console} {q : ℤ} (i : ℕ) (h : i < text.length),
    (s.putStatic q text).video (q + 2 * (i + 1)) = text[i]
  | c :: text, s, q, 0, _ => by
    rw [putStatic, video_putStatic_of_le text (by omega)]
    exact Function.update_self ..
  | c :: text, s, q, i + 1, h => by
    have hrest := video_putStatic text (s := s.store (q + 2) c) (q := q + 2) i (by simpa using h)
    rw [putStatic, List.getElem_cons_succ, ← hrest]
    congr 1
    push_cast
    ring

theorem putStatic_cursor : ∀ (text : List UInt8) {s : Console} {q : ℤ},
    (s.putStatic q text).X = s.X ∧ (s.putStatic q text).Y = s.Y ∧ (s.putStatic q text).csr = s.csr
  | [], _, _ => ⟨rfl, rfl, rfl⟩
  | c :: text, s, q => putStatic_cursor text (s := s.store (q + 2) c)

/-- What the last row shows. -/
def timeText (sec : ℕ) : List UInt8 := timeSinceBoot ++ numeral .dec sec

theorem kprintfBoott_ok (f : BoottFrame) (s : Console) (sec : ℕ) (h : sec < 2 ^ 31) :
    s.kprintfBoott f timeSinceBoot sec = .ok (s.putStatic (24 * 160 + 100) (timeText sec)) := by
  have hnum : (UInt64.ofNat ((sec : ℤ) % 2 ^ 64).toNat).toNat = sec := by
    rw [UInt64.toNat_ofNat_of_lt' (by simp only [UInt64.size]; omega)]
    omega
  obtain ⟨boots, ret, hitoap, hboots⟩ :=
    itoap_ok (.ofNat ((sec : ℤ) % 2 ^ 64).toNat) f.boots .dec f.tr
  have hlen := length_numeral_le .dec (.ofNat ((sec : ℤ) % 2 ^ 64).toNat)
  rw [hnum] at hboots hlen
  have hzero := zero_notMem_numeral .dec sec
  have htime : 0 ∉ timeSinceBoot := by decide
  obtain ⟨timeStr, hconcat, hstr⟩ := strConcat_ok f.timeStr (strCpy_append htime [])
    (strCpy_cells hboots hzero) (by
      rw [show timeSinceBoot.length = 18 from rfl]
      simp only [FMT_LEN]
      omega)
  refine bind_eq_ok.2 ⟨_, hitoap, bind_eq_ok.2 ⟨_, hconcat, bind_eq_ok.2 ⟨timeText sec, ?_, rfl⟩⟩⟩
  have htext : 0 ∉ timeText sec := by simp [timeText, htime, hzero]
  exact strCpy_cells hstr htext

end Console

/-! ## Runs -/

/-- The time as it should be shown: how many ticks there have been, and the number in the last row
if it has not been cleared. -/
structure Display where
  ticks : ℕ
  shown : Option ℕ

namespace Display

def step (d : Display) : Clock.Event → Display
  | .timer _ => ⟨d.ticks + 1, if d.ticks % 100 = 0 then some (d.ticks / 100) else d.shown⟩
  | .clear => { d with shown := none }
  | _ => d

def run (es : List Clock.Event) : Display := es.foldl step ⟨0, none⟩

theorem ticks_le : ∀ (es : List Clock.Event) (d : Display), d.ticks ≤ (es.foldl step d).ticks
  | [], d => Nat.le_refl _
  | e :: es, d => by
    have hstep : d.ticks ≤ (d.step e).ticks := by
      cases e with
      | timer => exact Nat.le_succ _
      | _ => exact Nat.le_refl _
    exact hstep.trans (ticks_le es _)

end Display

namespace Clock

variable {s : Clock} {d : Display} {t : Console}

/-- The clock shows what it should, and the text is `t`. -/
structure Refines (s : Clock) (d : Display) (t : Console) : Prop where
  ticks : s.ticks = d.ticks
  sec : s.sec = (d.ticks + 99 : ℕ) / 100 - 1
  decs : s.decs = (d.ticks + 99) / 100
  shown : ∀ n, d.shown = some n → ∀ i (h : i < (Console.timeText n).length),
    s.console.video (24 * 160 + 102 + 2 * i) = (Console.timeText n)[i]
  above : s.console.Above
  text : t.Same s.console

theorem int_succ {n : ℕ} {x : ℤ} (hn : x = n) (hlt : n + 1 < 2 ^ 31) :
    int (x + 1) = (n + 1 : ℕ) := by
  rw [hn, int_of_lt (by omega) (by omega), Nat.cast_succ]

theorem refines_start (hx : s.console.X < 160) (hy : s.console.Y ≤ 23) (hticks : s.ticks = 0)
    (hsec : s.sec = -1) (hdecs : s.decs = 0) : Refines s ⟨0, none⟩ s.console where
  ticks := hticks
  sec := hsec
  decs := hdecs
  shown _ hn := nomatch hn
  above := ⟨hx, hy⟩
  text := ⟨rfl, rfl, rfl, fun _ _ _ => rfl⟩

/-- A tick that starts a new second. -/
theorem irqTimerHandler_second {n : ℕ} (hn : s.ticks = n) (hlt : n + 1 < 2 ^ 31)
    (hzero : n % 100 = 0) (hnew : s.sec ≠ (n / 100 : ℕ)) (f : BoottFrame) :
    s.irqTimerHandler f = .ok
      { console := s.console.putStatic (24 * 160 + 100) (Console.timeText (n / 100))
        ticks := (n + 1 : ℕ)
        sec := (n / 100 : ℕ)
        decs := s.decs + 1 } := by
  have hmod : s.ticks.tmod 100 = 0 := by
    rw [hn, Int.tmod_eq_emod_of_nonneg (by omega)]
    omega
  have hdiv : s.ticks.tdiv 100 = (n / 100 : ℕ) := by
    rw [hn, Int.tdiv_eq_ediv_of_nonneg (by omega)]
    rfl
  have hprint := s.console.kprintfBoott_ok f (n / 100) (by omega)
  rw [irqTimerHandler, if_pos hmod, hdiv]
  simp only [if_pos hnew.symm]
  refine bind_eq_ok.2 ⟨_, hprint, bind_eq_ok.2 ⟨_, rfl, ?_⟩⟩
  simp only [int_succ hn hlt]
  rfl

theorem irqTimerHandler_between {n : ℕ} (hn : s.ticks = n) (hlt : n + 1 < 2 ^ 31)
    (hzero : n % 100 ≠ 0) (f : BoottFrame) :
    s.irqTimerHandler f = .ok { s with ticks := (n + 1 : ℕ) } := by
  have hmod : s.ticks.tmod 100 ≠ 0 := by
    rw [hn, Int.tmod_eq_emod_of_nonneg (by omega)]
    omega
  rw [irqTimerHandler, if_neg hmod, int_succ hn hlt]
  rfl

/-- A tick. -/
theorem Refines.timer (h : Refines s d t) (f : BoottFrame) (hlt : d.ticks + 1 < 2 ^ 31) :
    ∃ s', s.irqTimerHandler f = .ok s' ∧ Refines s' (d.step (.timer f)) t := by
  have hsec := h.sec
  have hdecs := h.decs
  by_cases hzero : d.ticks % 100 = 0
  · refine ⟨_, irqTimerHandler_second h.ticks hlt hzero (by omega) f, ?_⟩
    obtain ⟨hx, hy, hcsr⟩ := Console.putStatic_cursor (Console.timeText (d.ticks / 100))
      (s := s.console) (q := 24 * 160 + 100)
    simp only [Display.step, if_pos hzero]
    refine ⟨rfl, by simp only; omega, by simp only; omega, ?_, ⟨?_, ?_⟩, ?_⟩
    · rintro n hn i hi
      obtain rfl := Option.some.inj hn
      rw [← Console.video_putStatic _ i hi]
      congr 1
      ring
    · exact hx ▸ h.above.X
    · exact hy ▸ h.above.Y
    · refine ⟨h.text.X.trans hx.symm, h.text.Y.trans hy.symm, h.text.csr.trans hcsr.symm, ?_⟩
      intro p hp hlt
      rw [h.text.video p hp hlt]
      exact (Console.video_putStatic_of_le _ (by omega)).symm
  · refine ⟨_, irqTimerHandler_between h.ticks hlt hzero f, ?_⟩
    simp only [Display.step, if_neg hzero]
    exact { h with ticks := rfl, sec := by simp only; omega, decs := by simp only; omega }

theorem Refines.step (h : Refines s d t) (e : Event) (hlt : (d.step e).ticks < 2 ^ 31) :
    ∃ s', s.step e = .ok s' ∧ Refines s' (d.step e) (act t e) := by
  cases e with
  | timer f => exact h.timer f hlt
  | print seq =>
    obtain ⟨hkept, habove⟩ := h.above.printSeq seq
    refine ⟨_, rfl, { h with above := habove, text := h.text.printSeq seq, shown := ?_ }⟩
    intro n hn i hi
    rw [← h.shown n hn i hi]
    exact hkept _ (by omega)
  | backspace =>
    obtain ⟨hkept, habove⟩ := h.above.backspace
    refine ⟨_, rfl, { h with above := habove, text := h.text.backspace, shown := ?_ }⟩
    intro n hn i hi
    rw [← h.shown n hn i hi]
    exact hkept _ (by omega)
  | clear =>
    exact ⟨_, rfl, { h with
      above := Console.above_clearScreen _
      text := Console.same_clearScreen _ _
      shown := fun n hn => nomatch hn }⟩

theorem Refines.run : ∀ (es : List Event) {s : Clock} {d : Display} {t : Console}, Refines s d t →
    (es.foldl Display.step d).ticks < 2 ^ 31 →
    ∃ s', s.run es = .ok s' ∧ Refines s' (es.foldl Display.step d) (es.foldl act t)
  | [], s, _, _, h, _ => ⟨s, rfl, h⟩
  | e :: es, s, d, t, h, hlt => by
    obtain ⟨s₁, hstep, h₁⟩ := h.step e (Nat.lt_of_le_of_lt (Display.ticks_le es _) hlt)
    obtain ⟨s', hrun, h'⟩ := Refines.run es h₁ hlt
    exact ⟨s', bind_eq_ok.2 ⟨s₁, hstep, hrun⟩, h'⟩

/-- However ticks, output and the clearing of the screen come one after the other, as long as
`ticks` does not overflow, the text is what it would be without the timer, and the last row shows
the time if it has not been cleared since.  `dec_sleep_count` is called in the first of every
hundred ticks. -/
theorem run_refines (es : List Event) (hx : s.console.X < 160) (hy : s.console.Y ≤ 23)
    (hticks : s.ticks = 0) (hsec : s.sec = -1) (hdecs : s.decs = 0)
    (hlt : (Display.run es).ticks < 2 ^ 31) :
    ∃ s', s.run es = .ok s' ∧ s'.sec = ((Display.run es).ticks + 99 : ℕ) / 100 - 1 ∧
      s'.decs = ((Display.run es).ticks + 99) / 100 ∧
      (∀ n, (Display.run es).shown = some n → ∀ i (h : i < (Console.timeText n).length),
        s'.console.video (24 * 160 + 102 + 2 * i) = (Console.timeText n)[i]) ∧
      (es.foldl act s.console).Same s'.console := by
  obtain ⟨s', hrun, h⟩ := (refines_start hx hy hticks hsec hdecs).run es hlt
  exact ⟨s', hrun, h.sec, h.decs, h.shown, h.text⟩

/-- The kernel before the first tick. -/
def atBoot : Clock := ⟨⟨fun _ => 0, 0, 0, 0, []⟩, 0, -1, 0⟩

def emptyFrame : BoottFrame :=
  ⟨Buffer.replicate _ 0, Buffer.replicate _ 0, Buffer.replicate _ 0⟩

theorem run_refines_print : ∃ s', atBoot.run [.timer emptyFrame, .print [65], .timer emptyFrame]
    = .ok s' ∧ s'.sec = 0 ∧ s'.console.video (24 * 160 + 102) = 62 ∧ s'.console.video 2 = 65 := by
  obtain ⟨s', hrun, hsec, -, hshown, htext⟩ :=
    run_refines (s := atBoot) [.timer emptyFrame, .print [65], .timer emptyFrame] (by decide)
      (by decide) rfl rfl rfl (by decide)
  exact ⟨s', hrun, hsec, hshown 0 rfl 0 (by decide), (htext.video 2 (by decide) (by decide)).symm⟩

/-! ## How fast it runs -/

theorem timerInit_reload (p : Pit) : p.timerInit.reload = 13532 := by
  simp [Pit.timerInit, Pit.outb]

/-- In `seconds` seconds `sec` gets to less than that: a hundred ticks take 1353200 periods of the
timer's input, and a second has 1193182. -/
theorem shown_behind (p : Pit) (es : List Event) {seconds : ℕ} (hpos : 0 < seconds)
    (hx : s.console.X < 160) (hy : s.console.Y ≤ 23)
    (hticks : s.ticks = 0) (hsec : s.sec = -1) (hdecs : s.decs = 0)
    (htime : (Display.run es).ticks = p.timerInit.ticksIn (Pit.frequency * seconds))
    (hlt : (Display.run es).ticks < 2 ^ 31) :
    ∃ s', s.run es = .ok s' ∧ s'.sec = (1193182 * seconds - 13532 : ℕ) / 1353200 ∧
      160018 * (seconds : ℤ) ≤ 1353200 * (seconds - s'.sec) := by
  obtain ⟨s', hrun, h⟩ := (refines_start hx hy hticks hsec hdecs).run es hlt
  have hshown := h.sec
  rw [Pit.ticksIn, timerInit_reload, Pit.frequency] at htime
  rw [← Display.run, htime] at hshown
  exact ⟨s', hrun, by omega, by omega⟩

theorem shown_behind_one : ∃ s', atBoot.run (List.replicate 88 (.timer emptyFrame)) = .ok s' ∧
    s'.sec = 0 := by
  obtain ⟨s', hrun, hsec, -⟩ := @shown_behind atBoot ⟨none, true, 0⟩
    (List.replicate 88 (.timer emptyFrame)) 1 (by decide) (by decide) (by decide) rfl rfl rfl
    (by decide) (by decide)
  exact ⟨s', hrun, hsec⟩

end Clock

end Bgox
