import Bgox.Keyboard
import Bgox.Lib.Run
import Bgox.Proofs.Strings

/-!
# The line that is typed

A line editor (`Editor`) says what a line is after a sequence of scan codes.  The bytes of the
buffer below `buf_idx` are that line, and those above `buf_idx` are 0 (`Holds`); the one at
`buf_idx` may be left over from a character that has been removed, and is overwritten before it is
read.  So the line that `gets` delivers is right as long as every key has its character stored
(`Faithful`), and otherwise it is not (`line_delivered`).
-/

namespace Bgox

open Run (bind_eq_ok)

namespace Keyboard

/-! ## A line editor -/

structure Editor where
  line : List UInt8
  shift : Bool

namespace Editor

/-- The upper-case letter, or the symbol, of a key. -/
def shifted (key : ℕ) : Option UInt8 :=
  if 97 ≤ kbd key ∧ kbd key ≤ 122 then some (kbd key - 32) else symbols.lookup key

def char (shift : Bool) (key : ℕ) : Option UInt8 :=
  if kbd key = 0 then none
  else some (if shift then (shifted key).getD (kbd key) else kbd key)

/-- `ctrlShifts` says whether Shift is taken to be on while Ctrl is held. -/
def step (ctrlShifts : Bool) (e : Editor) (key : ℕ) : Editor :=
  if key = 0x2a then { e with shift := true }
  else if key = 0xaa then { e with shift := false }
  else if key = 0x1d then ⟨e.line ++ [94], e.shift || ctrlShifts⟩
  else if key = 0x9d then { e with shift := e.shift && !ctrlShifts }
  else if key = 0x0e then { e with line := e.line.dropLast }
  else if key = 0x1c then { e with line := e.line ++ [10] }
  else { e with line := e.line ++ (char e.shift key).toList }

def run (ctrlShifts : Bool) (e : Editor) (codes : List ℕ) : Editor :=
  codes.foldl (step ctrlShifts) e

end Editor

/-! ## Keys -/

/-- For a key that is not one of the control keys: it has a character, and it has one for Shift when
`SHIFT_ON` is set, which then has to be so in the editor as well. -/
def Faithful (shiftOn shift : Bool) (key : ℕ) : Prop :=
  key < 0x52 → key ∉ [0x2a, 0x1d, 0x0e, 0x1c] → kbd key ≠ 0 ∧
    if shiftOn then shift = true ∧ (Editor.shifted key).isSome
    else shift = true → Editor.shifted key = none

instance (shiftOn shift : Bool) (key : ℕ) : Decidable (Faithful shiftOn shift key) :=
  inferInstanceAs (Decidable (_ → _))

/-- Such a key has its character stored, and no other has. -/
theorem char_eq_keyChar_iff : ∀ {shiftOn shift : Bool} {key : ℕ}, key < 0x52 →
    key ∉ [0x2a, 0x1d, 0x0e, 0x1c] →
    ((Editor.char shift key = some (keyChar shiftOn key) ∧ keyChar shiftOn key ≠ 0) ↔
      Faithful shiftOn shift key) := by
  have hall : ∀ shiftOn shift : Bool, ∀ key < 0x52, key ∉ [0x2a, 0x1d, 0x0e, 0x1c] →
      ((Editor.char shift key = some (keyChar shiftOn key) ∧ keyChar shiftOn key ≠ 0) ↔
        Faithful shiftOn shift key) := by
    decide
  exact fun {shiftOn shift key} => hall shiftOn shift key

theorem char_of_le (shift : Bool) {key : ℕ} (h : 0x52 ≤ key) : Editor.char shift key = none := by
  have hlen : kbdus.length ≤ key := Nat.le_trans (by decide) h
  rw [Editor.char, if_pos]
  rw [kbd, List.getD_eq_getElem?_getD, List.getElem?_eq_none hlen, Option.getD_none]

/-! ## The buffer -/

variable {s s' : Keyboard} {line : List UInt8} {c : UInt8}

/-- The line is in the buffer, with zeros behind the byte that is written next. -/
structure Holds (s : Keyboard) (l : List UInt8) : Prop where
  idx : s.bufIdx = l.length
  nonzero : 0 ∉ l
  buf : ∀ i (h : i < l.length), s.charBuf i = l[i]
  rest : ∀ i, l.length < i → s.charBuf i = 0

theorem Holds.toNat_idx (hs : s.Holds line) : s.bufIdx.toNat = line.length := by
  rw [hs.idx, Int.toNat_natCast]

/-- The state after a byte has been stored. -/
theorem put_eq (h0 : 0 ≤ s.bufIdx) (h : s.bufIdx < 1024) (c : UInt8) : s.put c = .ok { s with
    charBuf := Function.update s.charBuf s.bufIdx.toNat c
    bufIdx := s.bufIdx + 1 } := by
  rw [put, set, if_pos ⟨h0, h⟩]
  rfl

theorem Holds.put (hs : s.Holds line) (hle : s.bufIdx ≤ 1000) (hc : c ≠ 0) :
    ∃ s', s.put c = .ok s' ∧ s'.Holds (line ++ [c]) ∧ s'.shiftOn = s.shiftOn := by
  have hidx := hs.idx
  have hnat := hs.toNat_idx
  refine ⟨_, put_eq (by omega) (by omega) c, ⟨?_, ?_, fun i hi => ?_, fun i hi => ?_⟩, rfl⟩
  · simp [hs.idx]
  · rw [List.mem_append, List.mem_singleton]
    rintro (h | h)
    · exact hs.nonzero h
    · exact hc h.symm
  · rw [List.length_append, List.length_singleton] at hi
    dsimp only
    rcases Nat.lt_or_eq_of_le (Nat.le_of_lt_succ hi) with hlt | rfl
    · rw [Function.update_of_ne (by omega), hs.buf i hlt, List.getElem_append_left]
    · simp [hnat]
  · rw [List.length_append, List.length_singleton] at hi
    dsimp only
    rw [Function.update_of_ne (by omega), hs.rest i (by omega)]

theorem Holds.backspace (hs : s.Holds line) (hle : s.bufIdx ≤ 1000) :
    ∃ s', s.irqKbHandler 0x0e = .ok s' ∧ s'.Holds line.dropLast ∧ s'.shiftOn = s.shiftOn := by
  have hlen := line.length_dropLast
  have hidx := hs.idx
  have hnat := hs.toNat_idx
  rcases Nat.eq_zero_or_pos line.length with h0 | hpos
  · have hnil : line = [] := List.eq_nil_of_length_eq_zero h0
    subst hnil
    refine ⟨s, ?_, hs, rfl⟩
    simp [irqKbHandler, hidx]
  · refine ⟨{ s with
        charBuf := Function.update s.charBuf s.bufIdx.toNat 0
        bufIdx := s.bufIdx - 1 }, ?_, ⟨?_, ?_, fun i hi => ?_, fun i hi => ?_⟩, rfl⟩
    · simp [irqKbHandler, show 0 < s.bufIdx by omega, set,
        show 0 ≤ s.bufIdx ∧ s.bufIdx < 1024 by omega, pure, Except.pure, bind, Except.bind]
    · dsimp only
      omega
    · exact fun h => hs.nonzero (List.dropLast_subset _ h)
    · dsimp only
      rw [Function.update_of_ne (by omega), hs.buf i (by omega), List.getElem_dropLast]
    · -- the byte that has been removed is still there, but in the place that is written next
      dsimp only
      by_cases hi' : i = s.bufIdx.toNat
      · rw [hi', Function.update_self]
      · rw [Function.update_of_ne hi', hs.rest i (by omega)]

/-! ## What is delivered -/

theorem map_range_eq {f : ℕ → UInt8} {l : List UInt8} {n : ℕ} (hlen : l.length < n)
    (hbuf : ∀ i (h : i < l.length), f i = l[i]) (hend : f l.length = 0) :
    ∃ t, (List.range n).map f = l ++ 0 :: t := by
  obtain ⟨k, rfl⟩ := Nat.exists_eq_add_of_lt hlen
  refine ⟨(List.range k).map fun i => f (l.length + (i + 1)), ?_⟩
  rw [Nat.add_assoc, List.range_add, List.map_append, List.range_succ_eq_map, List.map_cons,
    List.map_cons, List.map_map, List.map_map, Nat.add_zero, hend]
  congr 1
  refine List.ext_getElem (by simp) fun i hi hi' => ?_
  rw [List.getElem_map, List.getElem_range, hbuf i hi']

theorem gets_eq {l : List UInt8} (hlen : l.length < 1024) (hnz : 0 ∉ l)
    (hbuf : ∀ i (h : i < l.length), s.charBuf i = l[i]) (hend : s.charBuf l.length = 0) :
    ∃ s', s.gets = .ok (l, s') := by
  obtain ⟨t, hsplit⟩ := map_range_eq hlen hbuf hend
  rw [gets, hsplit, strLen_append hnz]
  exact ⟨_, congrArg Except.ok (Prod.ext List.take_left rfl)⟩

/-- The line `gets` returns after a sequence of scan codes. -/
def deliver (s : Keyboard) (codes : List ℕ) : Except Trap (List UInt8) := do
  let s ← s.run codes
  let (line, _) ← s.gets
  return line

theorem deliver_of_run {codes : List ℕ} {l : List UInt8} (hrun : s.run codes = .ok s')
    (hgets : ∃ s'', s'.gets = .ok (l, s'')) : s.deliver codes = .ok l := by
  obtain ⟨s'', hgets⟩ := hgets
  exact bind_eq_ok.2 ⟨_, hrun, bind_eq_ok.2 ⟨_, hgets, rfl⟩⟩

theorem run_cons {key : ℕ} {codes : List ℕ} (h : s.irqKbHandler key = .ok s') :
    s.run (key :: codes) = s'.run codes := by
  rw [run, List.foldlM_cons, h]
  rfl

theorem deliver_cons {key : ℕ} {codes : List ℕ} (h : s.irqKbHandler key = .ok s') :
    s.deliver (key :: codes) = s'.deliver codes := by
  rw [deliver, run_cons h, deliver]

theorem irqKbHandler_enter (h0 : 0 ≤ s.bufIdx) (h : s.bufIdx < 1024) :
    s.irqKbHandler 0x1c = .ok { s with
      charBuf := Function.update s.charBuf s.bufIdx.toNat 10
      bufIdx := s.bufIdx + 1
      newLine := true } :=
  put_eq (s := { s with newLine := true }) h0 h 10

/-- Enter writes over what was left in its place. -/
theorem Holds.deliver_enter (hs : s.Holds line) (hle : s.bufIdx ≤ 1001) :
    s.deliver [0x1c] = .ok (line ++ [10]) := by
  have hidx := hs.idx
  have hnat := hs.toNat_idx
  refine deliver_of_run ((run_cons (irqKbHandler_enter (by omega) (by omega))).trans rfl)
    (gets_eq ?_ ?_ (fun i hi => ?_) ?_)
  · rw [List.length_append, List.length_singleton]
    omega
  · simpa using hs.nonzero
  · rw [List.length_append, List.length_singleton] at hi
    dsimp only
    rcases Nat.lt_or_eq_of_le (Nat.le_of_lt_succ hi) with hlt | rfl
    · rw [Function.update_of_ne (by omega), hs.buf i hlt, List.getElem_append_left]
    · simp [hnat]
  · rw [List.length_append, List.length_singleton]
    dsimp only
    rw [Function.update_of_ne (by omega), hs.rest _ (by omega)]

/-- A zero in the line ends it. -/
theorem Holds.deliver_zero (hs : s.Holds line) (hle : s.bufIdx ≤ 1000) {key : ℕ}
    (hkey : s.irqKbHandler key = s.put 0) : s.deliver [key, 0x1c] = .ok line := by
  have hidx := hs.idx
  have hnat := hs.toNat_idx
  have hput := hkey.trans (put_eq (by omega) (by omega) 0)
  have henter := irqKbHandler_enter (s := { s with
    charBuf := Function.update s.charBuf s.bufIdx.toNat 0
    bufIdx := s.bufIdx + 1 }) (by dsimp only; omega) (by dsimp only; omega)
  refine deliver_of_run ((run_cons hput).trans ((run_cons henter).trans rfl))
    (gets_eq (by omega) hs.nonzero (fun i hi => ?_) ?_)
  · dsimp only
    rw [Function.update_of_ne (by omega), Function.update_of_ne (by omega), hs.buf i hi]
  · dsimp only
    rw [Function.update_of_ne (by omega), ← hnat, Function.update_self]

/-! ## Runs -/

variable {ctrlShifts : Bool} {e : Editor} {key : ℕ}

theorem irqKbHandler_key (hlt : key < 0x52) (hkey : key ∉ [0x2a, 0x1d, 0x0e, 0x1c]) :
    s.irqKbHandler key = s.put (keyChar s.shiftOn key) := by
  simp only [List.mem_cons, List.not_mem_nil, or_false, not_or] at hkey
  obtain ⟨hshift, hctrl, hback, henter⟩ := hkey
  rw [irqKbHandler, if_neg hshift, if_neg (by omega), if_neg hctrl, if_neg (by omega),
    if_neg hback, if_neg henter, if_pos hlt]

theorem Editor.step_key (hlt : key < 0x52) (hkey : key ∉ [0x2a, 0x1d, 0x0e, 0x1c]) :
    e.step ctrlShifts key = { e with line := e.line ++ (char e.shift key).toList } := by
  simp only [List.mem_cons, List.not_mem_nil, or_false, not_or] at hkey
  obtain ⟨hshift, hctrl, hback, henter⟩ := hkey
  rw [step, if_neg hshift, if_neg (by omega), if_neg hctrl, if_neg (by omega), if_neg hback,
    if_neg henter]

theorem Editor.length_step_le (e : Editor) (ctrlShifts : Bool) (key : ℕ) :
    (e.step ctrlShifts key).line.length ≤ e.line.length + 1 := by
  have hchar : (char e.shift key).toList.length ≤ 1 := by
    rcases char e.shift key with _ | c <;> simp
  unfold step
  split_ifs
  all_goals
    simp only [List.length_append, List.length_dropLast, List.length_cons, List.length_nil]
    omega

/-- The handler keeps up with the editor. -/
theorem Holds.step (ctrlShifts : Bool) (hs : s.Holds e.line) (hle : s.bufIdx ≤ 1000)
    (henter : key ≠ 0x1c) (hf : Faithful s.shiftOn e.shift key) :
    ∃ s', s.irqKbHandler key = .ok s' ∧ s'.Holds (e.step ctrlShifts key).line := by
  by_cases hlt : key < 0x52
  · by_cases hkey : key ∈ [0x2a, 0x1d, 0x0e]
    · simp only [List.mem_cons, List.not_mem_nil, or_false] at hkey
      rcases hkey with rfl | rfl | rfl
      · exact ⟨_, rfl, hs.idx, hs.nonzero, hs.buf, hs.rest⟩
      · have hs' : Holds { s with ctrlOn := true, shiftOn := true } e.line :=
          ⟨hs.idx, hs.nonzero, hs.buf, hs.rest⟩
        obtain ⟨s', hput, hs', -⟩ := hs'.put hle (c := 94) (by decide)
        exact ⟨s', hput, hs'⟩
      · obtain ⟨s', hback, hs', -⟩ := hs.backspace hle
        exact ⟨s', hback, hs'⟩
    · have hkey' : key ∉ [0x2a, 0x1d, 0x0e, 0x1c] := by
        simp only [List.mem_cons, List.not_mem_nil, or_false, not_or] at hkey ⊢
        exact ⟨hkey.1, hkey.2.1, hkey.2.2, henter⟩
      obtain ⟨hchar, hnz⟩ := (char_eq_keyChar_iff hlt hkey').2 hf
      obtain ⟨s', hput, hs', -⟩ := hs.put hle hnz
      refine ⟨s', (irqKbHandler_key hlt hkey').trans hput, ?_⟩
      rw [Editor.step_key hlt hkey', hchar]
      exact hs'
  · have hchar := char_of_le e.shift (Nat.le_of_not_lt hlt)
    by_cases hkey : key = 0xaa
    · subst hkey
      exact ⟨_, rfl, hs.idx, hs.nonzero, hs.buf, hs.rest⟩
    · by_cases hkey' : key = 0x9d
      · subst hkey'
        exact ⟨_, rfl, hs.idx, hs.nonzero, hs.buf, hs.rest⟩
      · refine ⟨s, ?_, ?_⟩
        · rw [irqKbHandler, if_neg (by omega), if_neg hkey, if_neg (by omega), if_neg hkey',
            if_neg (by omega), if_neg henter, if_neg hlt]
        · rw [Editor.step, if_neg (by omega), if_neg hkey, if_neg (by omega), if_neg hkey',
            if_neg (by omega), if_neg henter, hchar]
          simpa using hs

/-- Every key has its character stored, in the state it is typed in. -/
def FaithfulRun (ctrlShifts : Bool) : Keyboard → Editor → List ℕ → Prop
  | _, _, [] => True
  | s, e, key :: codes => Faithful s.shiftOn e.shift key ∧
    ∀ s', s.irqKbHandler key = .ok s' → FaithfulRun ctrlShifts s' (e.step ctrlShifts key) codes

theorem Holds.run : ∀ {codes : List ℕ} {s : Keyboard} {e : Editor}, s.Holds e.line →
    0x1c ∉ codes → FaithfulRun ctrlShifts s e codes →
    (∀ pre, pre <+: codes → ∀ s', s.run pre = .ok s' → s'.bufIdx ≤ 1000) →
    ∃ s', s.run codes = .ok s' ∧ s'.Holds (e.run ctrlShifts codes).line ∧ s'.bufIdx ≤ 1000
  | [], s, e, hs, _, _, hlen => ⟨s, rfl, hs, hlen [] (List.nil_prefix) s rfl⟩
  | key :: codes, s, e, hs, henter, hf, hlen => by
    rw [List.mem_cons, not_or] at henter
    obtain ⟨hne, hrest⟩ := henter
    obtain ⟨s', hkey, hs'⟩ := hs.step ctrlShifts (hlen [] List.nil_prefix s rfl) (Ne.symm hne) hf.1
    obtain ⟨s'', hrun, hs'', hle⟩ := Holds.run hs' hrest (hf.2 s' hkey) fun pre hpre t ht =>
      hlen (key :: pre) (List.prefix_cons_iff.2 (Or.inr ⟨pre, rfl, hpre⟩)) t
        ((run_cons hkey).trans ht)
    exact ⟨s'', (run_cons hkey).trans hrun, hs'', hle⟩

theorem deliver_append {pre codes : List ℕ} (hrun : s.run pre = .ok s') :
    s.deliver (pre ++ codes) = s'.deliver codes := by
  have happend : s.run (pre ++ codes) = s'.run codes := by
    rw [run, List.foldlM_append, ← run, hrun]
    rfl
  rw [deliver, happend, deliver]

/-- One more key: the line is right exactly if its character is stored. -/
theorem Holds.deliver_iff (hs : s.Holds e.line) (hle : s.bufIdx ≤ 1000) (henter : key ≠ 0x1c) :
    s.deliver [key, 0x1c] = .ok ((e.step ctrlShifts key).line ++ [10]) ↔
      Faithful s.shiftOn e.shift key := by
  constructor
  · intro hd hlt hkey
    rw [Editor.step_key hlt hkey] at hd
    have hput := irqKbHandler_key (s := s) hlt hkey
    by_cases hzero : keyChar s.shiftOn key = 0
    · rw [hzero] at hput
      rw [hs.deliver_zero hle hput] at hd
      have hlen := congrArg List.length (Except.ok.inj hd)
      simp only [List.length_append, List.length_singleton] at hlen
      omega
    · obtain ⟨s', hs₁, hs', -⟩ := hs.put hle hzero
      have hidx := hs'.idx
      have hidx₀ := hs.idx
      rw [List.length_append, List.length_singleton] at hidx
      rw [deliver_cons (hput.trans hs₁), hs'.deliver_enter (by omega)] at hd
      have hline := List.append_cancel_left (List.append_cancel_right (Except.ok.inj hd))
      refine (char_eq_keyChar_iff hlt hkey).1 ⟨?_, hzero⟩ hlt hkey
      rcases hchar : Editor.char e.shift key with _ | c
      · rw [hchar] at hline
        cases hline
      · rw [hchar] at hline
        exact congrArg some (List.singleton_inj.1 hline).symm
  · intro hf
    obtain ⟨s', hkey, hs'⟩ := hs.step ctrlShifts hle henter hf
    have hidx := hs'.idx
    have hidx₀ := hs.idx
    have hlen := e.length_step_le ctrlShifts key
    rw [deliver_cons hkey]
    exact hs'.deliver_enter (by omega)

theorem start_holds : start.Holds [] :=
  ⟨rfl, List.not_mem_nil, fun _ h => absurd h (Nat.not_lt_zero _), fun _ _ => rfl⟩

theorem Editor.run_enter (ctrlShifts : Bool) (e : Editor) (codes : List ℕ) :
    (e.run ctrlShifts (codes ++ [0x1c])).line = (e.run ctrlShifts codes).line ++ [10] := by
  rw [run, List.foldl_append]
  rfl

/-- The line is delivered as it was typed if every key has its character stored, and after such a
beginning it is not if the next key has not. -/
theorem line_delivered (ctrlShifts : Bool) (pre : List ℕ) (henter : 0x1c ∉ pre)
    (hlen : ∀ codes, codes <+: pre → ∀ s, start.run codes = .ok s → s.bufIdx ≤ 1000)
    (hf : FaithfulRun ctrlShifts start ⟨[], false⟩ pre) :
    start.deliver (pre ++ [0x1c])
        = .ok (Editor.run ctrlShifts ⟨[], false⟩ (pre ++ [0x1c])).line ∧
      ∃ s, start.run pre = .ok s ∧ ∀ key, key ≠ 0x1c →
        (start.deliver (pre ++ [key, 0x1c])
            = .ok (Editor.run ctrlShifts ⟨[], false⟩ (pre ++ [key, 0x1c])).line ↔
          Faithful s.shiftOn (Editor.run ctrlShifts ⟨[], false⟩ pre).shift key) := by
  obtain ⟨s, hrun, hs, hle⟩ := Holds.run (e := ⟨[], false⟩) start_holds henter hf hlen
  refine ⟨?_, s, hrun, fun key hkey => ?_⟩
  · rw [deliver_append hrun, Editor.run_enter]
    exact hs.deliver_enter (by omega)
  · rw [deliver_append hrun, show pre ++ [key, 0x1c] = pre ++ [key] ++ [0x1c] by simp,
      Editor.run_enter, Editor.run, List.foldl_append]
    exact hs.deliver_iff hle hkey

/-- Shift, `a` and Enter. -/
theorem line_delivered_letter : start.deliver [0x2a, 30, 0x1c] = .ok [65, 10] := by
  refine (line_delivered false [0x2a, 30] (by decide) (fun codes hpre s hs => ?_) ?_).1
  · rcases List.prefix_cons_iff.1 hpre with rfl | ⟨t, rfl, ht⟩
    · obtain rfl := Except.ok.inj hs
      exact (by decide : (0 : ℤ) ≤ 1000)
    rcases List.prefix_cons_iff.1 ht with rfl | ⟨u, rfl, hu⟩
    · obtain rfl := Except.ok.inj hs
      exact (by decide : (0 : ℤ) ≤ 1000)
    · rw [List.prefix_nil.1 hu] at hs
      obtain rfl := Except.ok.inj hs
      exact (by decide : (1 : ℤ) ≤ 1000)
  · refine ⟨by decide, fun s hs => ⟨?_, fun _ _ => trivial⟩⟩
    obtain rfl := Except.ok.inj hs
    decide

/-- A space with Shift held ends the line. -/
theorem shifted_space : start.deliver [30, 0x2a, 57, 0x1c] = .ok [97] ∧
    ∀ ctrlShifts, (Editor.run ctrlShifts ⟨[], false⟩ [30, 0x2a, 57, 0x1c]).line
      = [97, 32, 10] := by
  obtain ⟨s, hput, hs, -⟩ := start_holds.put (by decide) (show (97 : UInt8) ≠ 0 by decide)
  have hidx := hs.idx
  have hs' : Holds { s with shiftOn := true } [97] := ⟨hs.idx, hs.nonzero, hs.buf, hs.rest⟩
  have hkey : start.irqKbHandler 30 = .ok s := hput
  have hshift : s.irqKbHandler 0x2a = .ok { s with shiftOn := true } := rfl
  refine ⟨?_, by decide⟩
  rw [deliver_cons hkey, deliver_cons hshift]
  exact hs'.deliver_zero (by rw [hs'.idx]; decide) rfl

end Keyboard

end Bgox
