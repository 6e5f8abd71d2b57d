import Mathlib.Data.List.TakeWhile
import Bgox.Proofs.Arrays
import Bgox.Shell

/-!
# Command lines

The shell finds the command and its argument in every line that has a space or a tab in it.  In a
line without one, the newline is taken for the delimiter, and the 0 that should replace the newline
of the argument is stored in front of the array (`oxterm_iff`).
-/

namespace Bgox

open Keyboard (chars)
open Run (bind_eq_ok)

/-- A command line: it does not start with a blank, its only newline is at its end, and it has less
than 50 bytes. -/
structure Line where
  text : List UInt8
  nonzero : 0 ∉ text
  newline : 10 ∉ text
  short : text.length + 1 < 50
  first : ∃ c ∈ text.head?, isBlank c = false

namespace Line

variable (L : Line)

def bytes : List UInt8 := L.text ++ [10]

def cmd : List UInt8 := L.text.takeWhile (! isBlank ·)

/-- What comes after the blank that ends the command. -/
def arg : List UInt8 := (L.text.dropWhile (! isBlank ·)).tail

variable {L}

theorem cmd_ne_nil : L.cmd ≠ [] := by
  obtain ⟨c, hc, hblank⟩ := L.first
  obtain ⟨t, ht⟩ := List.head?_eq_some_iff.1 hc
  rw [cmd, ht, List.takeWhile_cons, if_pos (by simp [hblank])]
  simp

theorem mem_cmd {c : UInt8} (h : c ∈ L.cmd) : c ≠ 0 ∧ isBlank c = false := by
  refine ⟨?_, by simpa using List.mem_takeWhile_imp h⟩
  rintro rfl
  exact L.nonzero ((List.takeWhile_sublist _).subset h)

/-- There is a blank, or the command is all of the line. -/
theorem text_eq : L.text = L.cmd ∧ L.arg = [] ∨
    ∃ b, (b = 32 ∨ b = 9) ∧ L.text = L.cmd ++ b :: L.arg := by
  have hsplit : L.cmd ++ L.text.dropWhile (! isBlank ·) = L.text := List.takeWhile_append_dropWhile
  rcases hdrop : L.text.dropWhile (! isBlank ·) with _ | ⟨b, t⟩
  · rw [hdrop, List.append_nil] at hsplit
    exact Or.inl ⟨hsplit.symm, by rw [arg, hdrop, List.tail_nil]⟩
  · have hb := List.head?_dropWhile_not (! isBlank ·) L.text
    have hne : b ≠ 10 := by
      rintro rfl
      exact L.newline (hsplit ▸ by simp [hdrop])
    rw [hdrop] at hb hsplit
    refine Or.inr ⟨b, ?_, by rw [arg, hdrop, List.tail_cons, hsplit]⟩
    simpa [isBlank, hne, or_iff_not_imp_left] using hb

theorem zero_notMem_cmd : 0 ∉ L.cmd := fun h => (mem_cmd h).1 rfl

theorem length_text : L.text.length = L.cmd.length ∧ L.arg.length = 0 ∨
    L.text.length = L.cmd.length + 1 + L.arg.length := by
  rcases L.text_eq with ⟨htext, harg⟩ | ⟨b, -, htext⟩
  · exact Or.inl ⟨by rw [htext], by rw [harg]; rfl⟩
  · right
    rw [htext]
    simp
    omega

theorem zero_notMem_arg : 0 ∉ L.arg := by
  intro h
  rcases L.text_eq with ⟨-, harg⟩ | ⟨b, -, htext⟩
  · simp [harg] at h
  · exact L.nonzero (htext ▸ by simp [h])

end Line

/-! ## The delimiter -/

theorem ne_zero_of_isBlank {b : UInt8} (hb : isBlank b = true) : b ≠ 0 := by
  rintro rfl
  simp [isBlank] at hb

theorem findDelimLoop_append {b : UInt8} (hb : isBlank b = true) (t : List UInt8) :
    ∀ {w : List UInt8} (i : ℕ), (∀ c ∈ w, c ≠ 0 ∧ isBlank c = false) →
      findDelimLoop (w ++ b :: t) i = .ok (i + w.length)
  | [], i, _ => by simp [findDelimLoop, ne_zero_of_isBlank hb, hb]
  | c :: w, i, h => by
    obtain ⟨⟨hc0, hc⟩, hw⟩ := List.forall_mem_cons.1 h
    rw [List.cons_append, findDelimLoop, if_neg hc0, hc, if_neg (by simp),
      findDelimLoop_append hb t (i + 1) hw, List.length_cons, Nat.add_assoc, Nat.add_comm 1]

/-- The first byte is passed over. -/
theorem strfindDelim_append {w : List UInt8} {b : UInt8} (hne : w ≠ [])
    (hw : ∀ c ∈ w, c ≠ 0 ∧ isBlank c = false) (hb : isBlank b = true) (t : List UInt8) :
    strfindDelim (w ++ b :: t) 0 = .ok w.length := by
  obtain ⟨c, w, rfl⟩ := List.exists_cons_of_ne_nil hne
  rw [strfindDelim, List.cons_append, List.drop_succ_cons, List.drop_zero,
    findDelimLoop_append hb _ _ (List.forall_mem_cons.1 hw).2, List.length_cons, Nat.add_comm,
    Nat.zero_add]

/-! ## The two parts -/

/-- What `gets` leaves in `input`. -/
theorem input_ok {s : List UInt8} (h : s.length < COMM_LEN) :
    ∃ input, Buffer.write Trap.wild (Buffer.replicate COMM_LEN 0) 0 s = .ok input ∧
      input.Has 0 (s ++ [0]) := by
  obtain ⟨input, hwrite, hw⟩ := Buffer.write_ok Trap.wild (Buffer.replicate COMM_LEN (0 : UInt8))
    (k := 0) (w := s) (by omega)
  refine ⟨input, hwrite, Buffer.has_append.2 ⟨hw.has, Buffer.has_cons.2 ⟨?_, Buffer.has_nil _ _⟩⟩⟩
  rw [hw.frame _ (by omega), Buffer.replicate, List.getElem?_replicate, if_pos (by omega)]

/-- All is copied right, and one store is left. -/
theorem oxterm_eq {w t : List UInt8} {b : UInt8} (hne : w ≠ [])
    (hw : ∀ c ∈ w, c ≠ 0 ∧ isBlank c = false) (hb : isBlank b = true) (ht : 0 ∉ t)
    (hlen : w.length + 1 + t.length < COMM_LEN) : ∃ cmd arg : Buffer UInt8 COMM_LEN,
      cmd.Has 0 (w ++ [0]) ∧ arg.Has 0 (t ++ [0]) ∧ oxtermMain (w ++ b :: t) = (do
        let arg ← arg.store .wild ((t.length : ℤ) - 1) 0
        return .command cmd.cells arg.cells) := by
  have hlen' : (w ++ b :: t).length < COMM_LEN := by
    simp only [List.length_append, List.length_cons]
    omega
  have hnul : 0 ∉ w ++ b :: t := by
    simpa using ⟨fun h => (hw 0 h).1 rfl, (ne_zero_of_isBlank hb).symm, ht⟩
  obtain ⟨input, hwrite, hhas⟩ := input_ok hlen'
  have hstrlen := strLen_cells hhas hnul
  obtain ⟨r, hr⟩ := exists_cells hhas
  rw [List.append_assoc, List.cons_append] at hr
  have hhead : input.cells.head? ≠ some 10 := by
    obtain ⟨c, w, rfl⟩ := List.exists_cons_of_ne_nil hne
    rw [hr, List.cons_append, List.head?_cons]
    intro hc
    obtain rfl := Option.some.inj hc
    simpa [isBlank] using (hw 10 (by simp)).2
  have hdelim : strfindDelim input.cells 0 = .ok w.length := by
    rw [hr]
    exact strfindDelim_append hne hw hb _
  -- the command, with a 0 behind it twice
  obtain ⟨cmd, hcmd, hcmdhas⟩ := strSubstr_ok (u := []) (v := w) (w := b :: (t ++ 0 :: r)) (k := 0)
    (i := 0) (j := w.length - 1) (.replicate COMM_LEN 0) rfl (by omega) (by omega)
  obtain ⟨cmd', hstore, hcmdhas'⟩ := Buffer.store_append Trap.wild (Buffer.has_append.1 hcmdhas).1
    (by omega) 0
  -- the rest of the line, with the 0 at its end
  obtain ⟨arg, harg, harghas⟩ := strSubstr_ok (u := w ++ [b]) (v := t ++ [0]) (w := r) (k := 0)
    (i := w.length + 1) (j := (w ++ b :: t).length) (.replicate COMM_LEN 0) (by simp)
    (by simp; omega) (by simp; omega)
  have hplace : ((w ++ b :: t).length : ℤ) - w.length - 2 = t.length - 1 := by
    simp only [List.length_append, List.length_cons]
    omega
  refine ⟨cmd', arg, hcmdhas', (Buffer.has_append.1 harghas).1, ?_⟩
  rw [List.nil_append, ← hr] at hcmd
  simp only [List.append_assoc, List.singleton_append, ← hr] at harg
  rw [Nat.zero_add] at hstore
  simp only [oxtermMain, hwrite, bind, Except.bind, if_neg hhead, hstrlen,
    if_neg (Nat.not_le.2 hlen'), hdelim, hcmd, harg, hstore, hplace]

/-- Without a blank the store is in front of the array. -/
theorem oxterm_error {w : List UInt8} (hne : w ≠ []) (hw : ∀ c ∈ w, c ≠ 0 ∧ isBlank c = false)
    (hlen : w.length + 1 < COMM_LEN) : oxtermMain (w ++ [10]) = .error .wild := by
  obtain ⟨cmd, arg, -, -, heq⟩ := oxterm_eq (b := 10) (t := []) hne hw (by decide) (by simp)
    (by simpa using hlen)
  rw [heq, Buffer.store_error (by simp)]
  rfl

/-- The command and its argument are passed to `execvp`. -/
def Line.Splits (L : Line) : Prop :=
  ∃ cmd arg, oxtermMain L.bytes = .ok (.command cmd arg) ∧ strCpy cmd = .ok L.cmd ∧
    strCpy arg = .ok L.arg

theorem oxterm_iff (L : Line) : L.Splits ↔ 32 ∈ L.text ∨ 9 ∈ L.text := by
  have hlen := L.short
  rcases L.text_eq with ⟨htext, -⟩ | ⟨b, hb, htext⟩
  · have herror : oxtermMain L.bytes = .error .wild := by
      rw [Line.bytes, htext]
      refine oxterm_error Line.cmd_ne_nil (fun c => Line.mem_cmd) ?_
      rw [← htext]
      exact hlen
    constructor
    · rintro ⟨cmd, arg, hcommand, -⟩
      rw [herror] at hcommand
      cases hcommand
    · rw [htext]
      rintro (h | h)
      · simpa [isBlank] using (Line.mem_cmd h).2
      · simpa [isBlank] using (Line.mem_cmd h).2
  · have hmem : b ∈ L.text := by
      rw [htext]
      simp
    refine iff_of_true ?_ (by rcases hb with rfl | rfl <;> simp [hmem])
    have hblank : isBlank b = true := by rcases hb with rfl | rfl <;> decide
    have hcount := congrArg List.length htext
    simp only [List.length_append, List.length_cons] at hcount
    obtain ⟨cmd, arg, hcmd, harg, heq⟩ := oxterm_eq (w := L.cmd) (b := b) (t := L.arg ++ [10])
      Line.cmd_ne_nil (fun c => Line.mem_cmd) hblank (by simpa using Line.zero_notMem_arg)
      (by simp only [List.length_append, List.length_singleton, COMM_LEN]; omega)
    -- the newline is replaced
    rw [List.append_assoc] at harg
    obtain ⟨arg', hstore, harg'⟩ := Buffer.store_append Trap.wild (Buffer.has_append.1 harg).1
      (by simp only [COMM_LEN]; omega) 0
    refine ⟨cmd.cells, arg'.cells, ?_, strCpy_cells hcmd Line.zero_notMem_cmd,
      strCpy_cells harg' Line.zero_notMem_arg⟩
    rw [Line.bytes, htext, List.append_assoc, List.cons_append, heq]
    refine bind_eq_ok.2 ⟨arg', ?_, rfl⟩
    simpa using hstore

/-- The line `ls`. -/
def Line.ls : Line := ⟨chars ['l', 's'], by decide, by decide, by decide, 108, rfl, rfl⟩

theorem oxterm_ls :
    Line.ls.bytes = chars ['l', 's', '\n'] ∧ oxtermMain Line.ls.bytes = .error .wild := by
  refine ⟨rfl, oxterm_error ?_ ?_ ?_⟩
  · simp [Line.ls, chars]
  · simp [Line.ls, chars, isBlank, Char.toUInt8]
  · simp [Line.ls, chars, COMM_LEN]

end Bgox
