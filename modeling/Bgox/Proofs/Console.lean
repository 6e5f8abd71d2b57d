import Bgox.Console

/-!
# What the console shows

A `Layout` has no last row: a newline goes on to the next row, and so does a character that has no
place left.  The console shows its last 24 rows (`Shows`).  The cursor of a console on its row 23
stands for all the rows of the layout from there on: when the layout goes on to a new row, the
console moves every row up by one (`Shows.scroll`), and else it only goes on to the next one
(`Shows.next`).
-/

namespace Bgox

/-! ## The layout -/

/-- Rows of 80 columns, with the cursor. -/
structure Layout where
  cell : ℕ → ℕ → UInt8
  row : ℕ
  col : ℕ

namespace Layout

def empty : Layout := ⟨fun _ _ => 0, 0, 0⟩

def newline (l : Layout) : Layout := { l with row := l.row + 1, col := 0 }

/-- The next column, or the first of the next row. -/
def advance (l : Layout) : Layout :=
  if l.col + 1 < 80 then { l with col := l.col + 1 } else l.newline

def store (l : Layout) (c : UInt8) : Layout :=
  { l with cell := fun r k => if r = l.row ∧ k = l.col then c else l.cell r k }

def put (l : Layout) (c : UInt8) : Layout := if c = 0x0a then l.newline else l.advance.store c

def write (l : Layout) (text : List UInt8) : Layout := text.foldl put l

/-- The row `y` of the last 24, with rows of zeros after the last one if there are fewer. -/
def tail (l : Layout) (y k : ℕ) : UInt8 :=
  if l.row - 23 + y ≤ l.row then l.cell (l.row - 23 + y) k else 0

variable {l : Layout} {i k : ℕ}

/-- While there are fewer than 24 rows, a new one changes nothing. -/
theorem tail_newline (hbelow : ∀ r k, l.row < r → l.cell r k = 0) (hrow : l.row < 23) :
    l.newline.tail i k = l.tail i k := by
  have hnew : l.row + 1 - 23 = 0 := by omega
  have hold : l.row - 23 = 0 := by omega
  simp only [tail, newline, hnew, hold, Nat.zero_add]
  by_cases hi : i ≤ l.row
  · rw [if_pos hi, if_pos (by omega)]
  · rw [if_neg hi, hbelow i k (by omega), ite_self]

/-- Else the rows move up by one. -/
theorem tail_newline_of_le (hrow : 23 ≤ l.row) (hi : i < 23) :
    l.newline.tail i k = l.tail (i + 1) k := by
  have hr : l.row + 1 - 23 + i = l.row - 23 + (i + 1) := by omega
  simp only [tail, newline, hr]
  rw [if_pos (by omega), if_pos (by omega)]

theorem tail_newline_last (hbelow : ∀ r k, l.row < r → l.cell r k = 0) (hrow : 23 ≤ l.row) :
    l.newline.tail 23 k = 0 := by
  have hr : l.row + 1 - 23 + 23 = l.row + 1 := by omega
  simp only [tail, newline, hr, hbelow _ k (Nat.lt_succ_self l.row), ite_self]

theorem tail_store (hi : i < 24) (c : UInt8) :
    (l.store c).tail i k = if i = min l.row 23 ∧ k = l.col then c else l.tail i k := by
  have hiff : l.row - 23 + i = l.row ↔ i = min l.row 23 := by omega
  simp only [tail, store, hiff]
  by_cases hlast : i = min l.row 23 ∧ k = l.col
  · rw [if_pos (by omega), if_pos hlast, if_pos hlast]
  · rw [if_neg hlast, if_neg hlast]

end Layout

namespace Console

variable {s s' s'' : Console} {l : Layout} {x y : ℤ}

/-! ## Where bytes are stored -/

/-- From `s` to `s'` bytes have been stored in the rows 0 to 23 only. -/
def Wrote (s s' : Console) : Prop :=
  ∃ log, s'.log = log ++ s.log ∧ ∀ p ∈ log, 0 ≤ p ∧ p < 24 * 160

theorem Wrote.refl (s : Console) : Wrote s s := ⟨[], rfl, by simp⟩

theorem Wrote.trans (h : Wrote s s') (h' : Wrote s' s'') : Wrote s s'' := by
  obtain ⟨log, hlog, hp⟩ := h
  obtain ⟨log', hlog', hp'⟩ := h'
  refine ⟨log' ++ log, by rw [hlog', hlog, List.append_assoc], fun p hmem => ?_⟩
  rcases List.mem_append.1 hmem with hmem | hmem
  · exact hp' p hmem
  · exact hp p hmem

theorem wrote_store (s : Console) {p : ℤ} (c : UInt8) (h0 : 0 ≤ p) (h : p < 24 * 160) :
    Wrote s (s.store p c) := ⟨[p], rfl, by simpa using ⟨h0, h⟩⟩

theorem wrote_foldl {f : Console → ℕ → Console} {ks : List ℕ} (s : Console)
    (h : ∀ k ∈ ks, ∀ s, Wrote s (f s k)) : Wrote s (ks.foldl f s) := by
  induction ks generalizing s with
  | nil => exact Wrote.refl s
  | cons k ks ih =>
    exact (h k List.mem_cons_self s).trans
      (ih (f s k) fun k' hk' => h k' (List.mem_cons_of_mem _ hk'))

@[simp] theorem moveCsr_log (s : Console) : s.moveCsr.log = s.log := rfl

theorem wrote_clear (s : Console) {b : ℤ} {n : ℕ} (h0 : 0 ≤ b) (h : b + n ≤ 24 * 160) :
    Wrote s (s.clear b n) := by
  refine wrote_foldl s fun k hk s => ?_
  have hk := List.mem_range.1 hk
  exact wrote_store s 0 (by omega) (by omega)

theorem wrote_move (s : Console) {top next : ℤ} {n : ℕ} (h0 : 0 ≤ top) (hle : top ≤ next)
    (h : next + n ≤ 24 * 160) : Wrote s (s.move top next n) := by
  refine wrote_foldl s fun k hk s => ?_
  have hk := List.mem_range.1 hk
  exact (wrote_store s _ (by omega) (by omega)).trans (wrote_store _ 0 (by omega) (by omega))

theorem wrote_scrollUp (s : Console) : Wrote s s.scrollUp := by
  have hrows : Wrote s (s.scrollRows 23) := by
    refine wrote_foldl s fun i hi s => ?_
    have hi := List.mem_range'_1.1 hi
    exact (wrote_clear s (by omega) (by omega)).trans
      (wrote_move _ (by omega) (by omega) (by omega))
  rw [Wrote, scrollUp, moveCsr_log]
  exact hrows

/-! ## Scrolling -/

@[simp] theorem store_video (s : Console) (p : ℤ) (c : UInt8) :
    (s.store p c).video = Function.update s.video p c := rfl

@[simp] theorem moveCsr_video (s : Console) : s.moveCsr.video = s.video := rfl

theorem clear_succ (s : Console) (b : ℤ) (n : ℕ) :
    s.clear b (n + 1) = (s.clear b n).store (b + n) 0 := by
  simp [clear, List.range_succ]

theorem move_succ (s : Console) (top next : ℤ) (n : ℕ) :
    s.move top next (n + 1) = ((s.move top next n).store (top + n)
      ((s.move top next n).video (next + n))).store (next + n) 0 := by
  simp [move, List.range_succ]

theorem video_clear (s : Console) (b : ℤ) (n : ℕ) (p : ℤ) :
    (s.clear b n).video p = if b ≤ p ∧ p < b + n then 0 else s.video p := by
  induction n with
  | zero =>
    rw [if_neg (by omega)]
    rfl
  | succ n ih =>
    rw [clear_succ, store_video]
    by_cases hp : p = b + n
    · rw [hp, Function.update_self, if_pos (by omega)]
    · rw [Function.update_of_ne hp, ih]
      simp only [show b ≤ p ∧ p < b + (n + 1 : ℕ) ↔ b ≤ p ∧ p < b + n by omega]

/-- Moving up by a row of 160 bytes. -/
theorem video_move (s : Console) (b : ℤ) {n : ℕ} (hn : n ≤ 160) (p : ℤ) :
    (s.move b (b + 160) n).video p = if b ≤ p ∧ p < b + n then s.video (p + 160)
      else if b + 160 ≤ p ∧ p < b + 160 + n then 0 else s.video p := by
  induction n generalizing p with
  | zero =>
    rw [if_neg (by omega), if_neg (by omega)]
    rfl
  | succ n ih =>
    rw [move_succ, store_video, store_video]
    by_cases hnext : p = b + 160 + n
    · rw [hnext, Function.update_self, if_neg (by omega), if_pos (by omega)]
    · rw [Function.update_of_ne hnext]
      by_cases htop : p = b + n
      · rw [htop, Function.update_self, ih (by omega), if_neg (by omega), if_neg (by omega),
          if_pos (by omega), Int.add_right_comm]
      · rw [Function.update_of_ne htop, ih (by omega)]
        simp only [show b ≤ p ∧ p < b + (n + 1 : ℕ) ↔ b ≤ p ∧ p < b + n by omega,
          show b + 160 ≤ p ∧ p < b + 160 + (n + 1 : ℕ) ↔ b + 160 ≤ p ∧ p < b + 160 + n by omega]

theorem scrollRows_succ (s : Console) (n : ℕ) : s.scrollRows (n + 1) =
    ((s.scrollRows n).clear (n * 160) 160).move (n * 160) (n * 160 + 160) 160 := by
  have htop : (((1 + n : ℕ) : ℤ) - 1) * 160 = n * 160 := by omega
  have hnext : ((1 + n : ℕ) : ℤ) * 160 = n * 160 + 160 := by omega
  simp only [scrollRows, List.range'_1_concat, List.foldl_append, List.foldl_cons, List.foldl_nil,
    htop, hnext]

/-- The rows from 1 to `n` have moved up. -/
theorem video_scrollRows (s : Console) (n : ℕ) {p : ℤ} (hp : 0 ≤ p) :
    (s.scrollRows n).video p = if p < n * 160 then s.video (p + 160)
      else if 0 < n ∧ p < n * 160 + 160 then 0 else s.video p := by
  induction n generalizing p with
  | zero =>
    rw [if_neg (by omega), if_neg (by omega)]
    rfl
  | succ n ih =>
    rw [scrollRows_succ, video_move _ _ (Nat.le_refl 160), video_clear, video_clear,
      ih (show 0 ≤ p + 160 by omega), ih hp]
    by_cases h1 : p < n * 160
    · rw [if_neg (by omega), if_neg (by omega), if_neg (by omega), if_pos h1, if_pos (by omega)]
    by_cases h2 : p < n * 160 + 160
    · rw [if_pos (by omega), if_neg (by omega), if_neg (by omega), if_neg (by omega),
        if_pos (by omega)]
    by_cases h3 : p < n * 160 + 160 + 160
    · rw [if_neg (by omega), if_pos (by omega), if_neg (by omega), if_pos (by omega)]
    · rw [if_neg (by omega), if_neg (by omega), if_neg (by omega), if_neg (by omega),
        if_neg (by omega), if_neg (by omega), if_neg (by omega)]

theorem clearRows_succ (s : Console) (n : ℕ) :
    s.clearRows (n + 1) = (s.clearRows n).clear (n * 160) 160 := by
  simp [clearRows, List.range_succ]

theorem video_clearRows (s : Console) (n : ℕ) {p : ℤ} (hp : 0 ≤ p) (hlt : p < n * 160) :
    (s.clearRows n).video p = 0 := by
  induction n with
  | zero => omega
  | succ n ih =>
    rw [clearRows_succ, video_clear]
    split_ifs with h
    · rfl
    · exact ih (by omega)

/-! ## The console shows the layout -/

/-- The console with the cursor at `x` and `y` shows the last rows of `l`. -/
structure Shows (video : ℤ → UInt8) (x y : ℤ) (l : Layout) : Prop where
  x_eq : x = 2 * l.col
  y_eq : y = min l.row 23
  col_lt : l.col < 80
  cells : ∀ i k : ℕ, i < 24 → k < 80 → video (i * 160 + 2 * k) = l.tail i k
  below : ∀ r k, l.row < r → l.cell r k = 0

theorem shows_clearScreen (s : Console) :
    Shows s.clearScreen.video s.clearScreen.X s.clearScreen.Y Layout.empty where
  x_eq := rfl
  y_eq := rfl
  col_lt := by decide
  cells := fun i k hi hk => by
    have hzero := video_clearRows s 25 (p := i * 160 + 2 * k) (by omega) (by omega)
    rw [clearScreen, moveCsr_video, hzero, Layout.tail]
    split_ifs <;> rfl
  below := fun _ _ _ => rfl

theorem Shows.nextRow (h : Shows s.video x y l) :
    Shows (s.nextRow y).1.video 0 (s.nextRow y).2 l.newline ∧ Wrote s (s.nextRow y).1 := by
  have hy := h.y_eq
  have hbelow : ∀ r k, l.newline.row < r → l.newline.cell r k = 0 := fun r k hr =>
    h.below r k (Nat.lt_of_succ_lt hr)
  rw [Console.nextRow]
  split_ifs with hrow
  · have hle : 23 ≤ l.row := by omega
    refine ⟨⟨rfl, ?_, Nat.zero_lt_succ _, fun i k hi hk => ?_, hbelow⟩, wrote_scrollUp s⟩
    · show (23 : ℤ) = min (l.row + 1 : ℕ) 23
      omega
    · rw [scrollUp, moveCsr_video, video_scrollRows s 23 (by omega)]
      by_cases hi' : i < 23
      · rw [if_pos (by omega), Layout.tail_newline_of_le hle hi',
          ← h.cells (i + 1) k (by omega) hk]
        congr 1
        omega
      · obtain rfl : i = 23 := by omega
        rw [if_neg (by omega), if_pos (by omega), Layout.tail_newline_last h.below hle]
  · have hlt : l.row < 23 := by omega
    refine ⟨⟨rfl, ?_, Nat.zero_lt_succ _, fun i k hi hk => ?_, hbelow⟩, Wrote.refl s⟩
    · show y + 1 = min (l.row + 1 : ℕ) 23
      omega
    · rw [Layout.tail_newline h.below hlt]
      exact h.cells i k hi hk

theorem Shows.store (h : Shows s.video x y l) (c : UInt8) :
    Shows (s.store (y * 160 + x) c).video x y (l.store c) ∧ Wrote s (s.store (y * 160 + x) c) := by
  have hx := h.x_eq
  have hy := h.y_eq
  have hcol := h.col_lt
  refine ⟨⟨hx, hy, hcol, fun i k hi hk => ?_, fun r k hr => ?_⟩,
    wrote_store s c (by omega) (by omega)⟩
  · rw [store_video, Layout.tail_store hi]
    by_cases hp : i = min l.row 23 ∧ k = l.col
    · rw [if_pos hp, show (i * 160 + 2 * k : ℤ) = y * 160 + x by omega, Function.update_self]
    · rw [if_neg hp, Function.update_of_ne (by omega)]
      exact h.cells i k hi hk
  · show (if r = l.row ∧ k = l.col then c else l.cell r k) = 0
    have hr : l.row < r := hr
    rw [if_neg (by omega), h.below r k hr]

/-- A turn of the loop. -/
theorem Shows.printChar (h : Shows s.video x y l) {c : UInt8} (hc : c ≠ 0x0d) :
    let st := Console.printChar c (s, x, y)
    Shows st.1.video st.2.1 st.2.2 (l.put c) ∧ Wrote s st.1 := by
  have hx := h.x_eq
  simp only [Console.printChar, Layout.put, Layout.advance, if_neg hc]
  split_ifs with hnl hwrap hfit hfit
  · exact h.nextRow
  · omega
  · obtain ⟨hnext, hw⟩ := h.nextRow
    obtain ⟨hstore, hw'⟩ := hnext.store c
    exact ⟨hstore, hw.trans hw'⟩
  · have hright : Shows s.video (x + 2) y { l with col := l.col + 1 } :=
      ⟨by dsimp only; omega, h.y_eq, hfit, h.cells, h.below⟩
    exact hright.store c
  · omega

theorem Shows.printLoop {text : List UInt8} (h0 : 0 ∉ text) (hcr : 0x0d ∉ text) :
    ∀ {s : Console} {x y : ℤ} {l : Layout}, Shows s.video x y l →
      let st := Console.printLoop text (s, x, y)
      Shows st.1.video st.2.1 st.2.2 (l.write text) ∧ Wrote s st.1 := by
  induction text with
  | nil => exact fun h => ⟨h, Wrote.refl _⟩
  | cons c text ih =>
    intro s x y l h
    rw [List.mem_cons, not_or] at h0 hcr
    obtain ⟨hchar, hw⟩ := h.printChar (Ne.symm hcr.1)
    obtain ⟨hrest, hw'⟩ := ih h0.2 hcr.2 hchar
    rw [Console.printLoop, if_neg (Ne.symm h0.1)]
    exact ⟨hrest, hw.trans hw'⟩

theorem Shows.printSeq {text : List UInt8} (h0 : 0 ∉ text) (hcr : 0x0d ∉ text)
    (h : Shows s.video s.X s.Y l) :
    Shows (s.printSeq text (-1) (-1)).video (s.printSeq text (-1) (-1)).X
      (s.printSeq text (-1) (-1)).Y (l.write text) ∧ Wrote s (s.printSeq text (-1) (-1)) := by
  obtain ⟨hloop, hw⟩ := Shows.printLoop h0 hcr h
  exact ⟨hloop, hw⟩

/-- Strings that are printed one after the other. -/
def printAll (s : Console) (texts : List (List UInt8)) : Console :=
  texts.foldl (fun s text => s.printSeq text (-1) (-1)) s

theorem Shows.printAll {texts : List (List UInt8)} (h : ∀ text ∈ texts, 0 ∉ text ∧ 0x0d ∉ text) :
    ∀ {s : Console} {l : Layout}, Shows s.video s.X s.Y l →
      Shows (s.printAll texts).video (s.printAll texts).X (s.printAll texts).Y
        (l.write texts.flatten) ∧ Wrote s (s.printAll texts) := by
  induction texts with
  | nil => exact fun hs => ⟨hs, Wrote.refl _⟩
  | cons text texts ih =>
    intro s l hs
    obtain ⟨h0, hcr⟩ := h text List.mem_cons_self
    obtain ⟨hs', hw⟩ := hs.printSeq h0 hcr
    obtain ⟨hrest, hw'⟩ := ih (fun t ht => h t (List.mem_cons_of_mem _ ht)) hs'
    rw [List.flatten_cons, Layout.write, List.foldl_append]
    exact ⟨hrest, hw.trans hw'⟩

/-- After `clear_screen`, whatever strings without carriage returns are printed: the rows 0 to 23
show the last 24 rows of the layout, `X` and `Y` are its cursor, and nothing is stored outside of
these rows. -/
theorem console_shows_tail (s : Console) (texts : List (List UInt8))
    (h : ∀ text ∈ texts, 0 ∉ text ∧ 0x0d ∉ text) :
    let l := Layout.empty.write texts.flatten
    let s' := s.clearScreen.printAll texts
    (∀ i k : ℕ, i < 24 → k < 80 → s'.video (i * 160 + 2 * k) = l.tail i k) ∧
      s'.X = 2 * l.col ∧ s'.Y = min l.row 23 ∧
      (s'.X % 2 = 0 ∧ 0 ≤ s'.X ∧ s'.X ≤ 158 ∧ 0 ≤ s'.Y ∧ s'.Y ≤ 23) ∧
      Wrote s.clearScreen s' := by
  dsimp only
  obtain ⟨hs, hw⟩ := (shows_clearScreen s).printAll h
  have hx := hs.x_eq
  have hy := hs.y_eq
  have hcol := hs.col_lt
  exact ⟨hs.cells, hx, hy, by omega, hw⟩

/-- Two lines are printed with two calls. -/
theorem console_shows_lines :
    (printAll (clearScreen ⟨fun _ => 65, 7, 7, 0, []⟩) [[104, 105], [10, 33]]).video
      (1 * 160 + 2 * 1) = 33 := by
  have hshow := (console_shows_tail ⟨fun _ => 65, 7, 7, 0, []⟩ [[104, 105], [10, 33]]
    (by decide)).1 1 1 (by decide) (by decide)
  exact hshow.trans (by decide)

end Console

end Bgox
