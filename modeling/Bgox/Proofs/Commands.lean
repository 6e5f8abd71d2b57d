import Bgox.Proofs.Numerals
import Bgox.Proofs.Rows
import Bgox.Proofs.Search
import Bgox.Proofs.Shell

/-!
# Arguments of system calls

The handlers have tables of two or three rows for the words of an argument, and `str_split_delim`
stores as many rows as there are words (`split_ok`, `split_error`).  `kill` takes the second word,
for which it has two bytes, and if there is none what was in the table before; so it can name no
process from 100 on.  `exec` puts the path in front of the command (`handlers_iff`).
-/

namespace Bgox

open Keyboard (chars)
open Run (bind_eq_ok)

variable {R : ℕ} {s t : List UInt8}

/-! ## Words -/

/-- What comes after the first space, up to the next one. -/
def secondWord (s : List UInt8) : List UInt8 := (s.dropWhile (· ≠ 32)).tail.takeWhile (· ≠ 32)

theorem pieces_second (h : 32 ∈ s) : (pieces 32 s)[1]? = some (32 :: secondWord s) := by
  obtain ⟨a, t, rfl, ha⟩ := List.eq_append_cons_of_mem h
  have hdrop : (a ++ 32 :: t).dropWhile (· ≠ 32) = 32 :: t := by
    rw [List.dropWhile_append_of_pos (by simpa using fun c hc => ne_of_mem_of_not_mem hc ha)]
    simp
  have hhead := pieces_head? 32 t
  obtain ⟨p, ps, hps⟩ := List.exists_cons_of_ne_nil (pieces_ne_nil 32 t)
  rw [hps, List.head?_cons, Option.some.injEq] at hhead
  rw [secondWord, hdrop, pieces_append ha, hps, hhead]
  rfl

/-- There is a row for every word. -/
theorem split_ok (b : Buffer UInt8 (R * FMT_LEN)) (hs : 0 ∉ s) (hlen : s.length < FMT_LEN)
    (hcount : s.count 32 < R) (t : List UInt8) : ∃ out,
      strSplitDelim (s ++ 0 :: t) 32 b = .ok (out, (pieces 32 s).length) ∧
      ∀ i p, (pieces 32 s)[i]? = some p → out.Has (i * FMT_LEN) (p ++ [0]) := by
  have hle : ∀ i p, (pieces 32 s)[i]? = some p → i < R ∧ p.length < FMT_LEN := by
    intro i p hp
    have hi := (List.getElem?_eq_some_iff.1 hp).1
    have hp' := (pieces_sublist (List.mem_of_getElem? hp)).length_le
    rw [length_pieces] at hi
    omega
  have hroom : ∀ i p, (pieces 32 s)[i]? = some p →
      (0 + i) * FMT_LEN + p.length < R * FMT_LEN := by
    intro i p hp
    obtain ⟨hi, hlt⟩ := hle i p hp
    calc (0 + i) * FMT_LEN + p.length
        < (i + 1) * FMT_LEN := by rw [Nat.zero_add, Nat.succ_mul]; omega
      _ ≤ R * FMT_LEN := Nat.mul_le_mul_right _ hi
  obtain ⟨out, hrows⟩ := writeRows_ok b hroom
  refine ⟨out, ?_, fun i p hp => ?_⟩
  · rw [strSplitDelim_eq hs, hrows]
    rfl
  · simpa using row_has_of_lt hrows hp (Or.inl (hle i p hp).2)

theorem split_error (b : Buffer UInt8 (R * FMT_LEN)) (hs : 0 ∉ s) (hcount : R ≤ s.count 32)
    (t : List UInt8) : strSplitDelim (s ++ 0 :: t) 32 b = .error .wild := by
  have hR : R < (pieces 32 s).length := by
    rw [length_pieces]
    omega
  rw [strSplitDelim_eq hs, writeRows_error (List.getElem?_eq_getElem hR) (by simp)]
  rfl

/-- The first row. -/
theorem split_first {out : Buffer UInt8 (R * FMT_LEN)}
    (h : ∀ i p, (pieces 32 s)[i]? = some p → out.Has (i * FMT_LEN) (p ++ [0])) :
    out.Has 0 (s.takeWhile (· ≠ 32) ++ [0]) := by
  have hhead := pieces_head? 32 s
  rw [List.head?_eq_getElem?] at hhead
  simpa using h 0 _ hhead

/-! ## Numbers and characters in a string -/

theorem atoiFrom_ok (t : List UInt8) : ∀ {s : List UInt8} (res : ℤ), 0 ∉ s →
    ∃ n, atoiFrom res (s ++ 0 :: t) = .ok n
  | [], res, _ => ⟨res, by simp [atoiFrom]⟩
  | c :: s, res, h => by
    simp only [List.mem_cons, not_or] at h
    rw [List.cons_append, atoiFrom, if_neg (Ne.symm h.1)]
    exact atoiFrom_ok t _ h.2

theorem atoi_ok (t : List UInt8) (hs : 0 ∉ s) : ∃ n, atoi (s ++ 0 :: t) = .ok n := by
  rcases s with _ | ⟨c, s⟩
  · exact ⟨0, rfl⟩
  · by_cases hc : c = 45
    · subst hc
      obtain ⟨n, hn⟩ := atoiFrom_ok t 0 (fun h => hs (List.mem_cons_of_mem _ h))
      exact ⟨int (-1 * n), bind_eq_ok.2 ⟨n, hn, rfl⟩⟩
    · rw [List.cons_append, atoi_of_ne hc]
      exact atoiFrom_ok t 0 hs

/-! ## The handlers -/

theorem syscallExec_iff (fs : Tarfs) (r t : List UInt8) {cmd arg : List UInt8} (hcmd : 0 ∉ cmd)
    (harg : 0 ∉ arg) (hlen : arg.length < 50) :
    (∀ c a, ∃ res, syscallExec fs (cmd ++ 0 :: r) (arg ++ 0 :: t) c a = .ok res) ↔
      cmd.length ≤ 45 := by
  have hpath : strCpy (PATH ++ [0]) = .ok PATH := strCpy_append (by decide) []
  have hfour : PATH.length = 4 := rfl
  constructor
  · intro hall
    obtain ⟨res, hres⟩ := hall (.replicate 50 0) (.replicate 50 0)
    by_contra hlong
    rw [syscallExec, strConcat_error _ hpath (strCpy_append hcmd r) (by omega)] at hres
    cases hres
  · intro hshort c a
    obtain ⟨c', hconcat, hc'⟩ := strConcat_ok c hpath (strCpy_append hcmd r) (by omega)
    have hname : 0 ∉ PATH ++ cmd := by simpa using ⟨by decide, hcmd⟩
    obtain ⟨a', hcpy, ha'⟩ := strCpyInto_ok a (strCpy_append harg t) hlen
    rw [syscallExec, hconcat]
    simp only [bind, Except.bind, strCpy_cells hc' hname]
    rcases fs.openFile (PATH ++ cmd) with _ | fd
    · exact ⟨none, rfl⟩
    · simp only [hcpy, strLen_cells ha' harg, strCpy_cells ha' harg, strCpy_append hcmd r]
      exact ⟨_, rfl⟩

/-- A handler that goes on with the first word needs a row for every word, and nothing else. -/
theorem first_iff {β : Type} {k : Buffer UInt8 (R * FMT_LEN) × ℕ → Except Trap β} (t : List UInt8)
    (hs : 0 ∉ s) (hlen : s.length < FMT_LEN)
    (hk : ∀ out n, out.Has 0 (s.takeWhile (· ≠ 32) ++ [0]) → ∃ r, k (out, n) = .ok r) :
    (∀ b, ∃ r, strSplitDelim (s ++ 0 :: t) 32 b >>= k = .ok r) ↔ s.count 32 < R := by
  constructor
  · intro hall
    obtain ⟨r, hr⟩ := hall (.replicate _ 0)
    by_contra hmany
    rw [split_error _ hs (Nat.not_lt.1 hmany)] at hr
    cases hr
  · intro hfew b
    obtain ⟨out, hsplit, hout⟩ := split_ok b hs hlen hfew t
    obtain ⟨r, hr⟩ := hk out _ (split_first hout)
    exact ⟨r, bind_eq_ok.2 ⟨_, hsplit, hr⟩⟩

theorem zero_notMem_first (hs : 0 ∉ s) : 0 ∉ s.takeWhile (· ≠ 32) := fun h =>
  hs ((List.takeWhile_sublist _).subset h)

theorem syscallCat_iff (t : List UInt8) (hs : 0 ∉ s) (hlen : s.length < FMT_LEN) :
    (∀ b, ∃ name, syscallCat (s ++ 0 :: t) b = .ok name) ↔ s.count 32 ≤ 1 := by
  rw [← Nat.lt_succ_iff]
  exact first_iff t hs hlen fun out _ hout => ⟨_, strCpy_cells hout (zero_notMem_first hs)⟩

theorem syscallSleep_iff (t : List UInt8) (hs : 0 ∉ s) (hlen : s.length < FMT_LEN) :
    (∀ b, ∃ r, syscallSleep (s ++ 0 :: t) b = .ok r) ↔ s.count 32 ≤ 1 := by
  rw [← Nat.lt_succ_iff]
  refine first_iff t hs hlen fun out _ hout => ?_
  obtain ⟨r, hr⟩ := exists_cells hout
  obtain ⟨_, -, hfound⟩ := strContains_found (q := chars ['&']) (by decide) hs t
  obtain ⟨n, hn⟩ := atoi_ok r (zero_notMem_first hs)
  rw [← hr] at hn
  exact ⟨_, bind_eq_ok.2 ⟨_, hfound, bind_eq_ok.2 ⟨n, hn, rfl⟩⟩⟩

/-! ## `kill` -/

section Row

variable {b table : Buffer UInt8 (3 * FMT_LEN)} {buf w r : List UInt8} {c : UInt8} {n : ℕ}

variable (out : Buffer UInt8 3) (hsplit : strSplitDelim buf 32 b = .ok (table, n))
  (hrow : table.cells.drop FMT_LEN = c :: (w ++ 0 :: r)) (hc : c ≠ 0) (hw : 0 ∉ w)
include hsplit hrow hc hw

/-- All of the second row but for its first byte is copied. -/
theorem syscallKill_eq : syscallKill buf b out = (do
    let out ← strSubstr ([c] ++ (w ++ 0 :: r)) 1 ((w.length + 1 : ℕ) - 1) out 0
    if (← strLen out.cells) = 0 then return none else return some (← atoi out.cells)) := by
  have hlen : strLen (c :: (w ++ 0 :: r)) = .ok (w.length + 1) :=
    strLen_append (s := c :: w) (by simpa using ⟨hc.symm, hw⟩) r
  simp only [syscallKill, hsplit, hrow, hlen, bind, Except.bind]
  rfl

theorem syscallKill_ok (hlen : w.length ≤ 2) : ∃ r', syscallKill buf b out
    = if w.length = 0 then .ok none else do return some (← atoi (w ++ 0 :: r')) := by
  obtain ⟨out', hsub, hhas⟩ := strSubstr_ok (u := [c]) (v := w) (w := 0 :: r) (k := 0) (i := 1)
    (j := (w.length + 1 : ℕ) - 1) out rfl (by omega) (by omega)
  obtain ⟨r', hr'⟩ := exists_cells hhas
  refine ⟨r', ?_⟩
  rw [syscallKill_eq out hsplit hrow hc hw, hsub, ← hr']
  simp only [bind, Except.bind, strLen_cells hhas hw]
  rfl

theorem syscallKill_error (hlen : 2 < w.length) : syscallKill buf b out = .error .wild := by
  have hsub := strSubstr_error (u := [c]) (v := w) (w := 0 :: r) (k := 0) (i := 1)
    (j := (w.length + 1 : ℕ) - 1) out rfl (by omega) (by omega)
  rw [syscallKill_eq out hsplit hrow hc hw, hsub]
  rfl

end Row

/-- The second row, if there is a space. -/
theorem split_second (b : Buffer UInt8 (3 * FMT_LEN)) (hs : 0 ∉ s) (hlen : s.length < FMT_LEN)
    (h1 : 32 ∈ s) (h2 : s.count 32 ≤ 2) (t : List UInt8) : ∃ table n r,
      strSplitDelim (s ++ 0 :: t) 32 b = .ok (table, n) ∧
      table.cells.drop FMT_LEN = 32 :: (secondWord s ++ 0 :: r) := by
  obtain ⟨table, hsplit, htable⟩ := split_ok b hs hlen (by omega) t
  obtain ⟨r, hr⟩ := exists_drop (htable 1 _ (pieces_second h1))
  rw [Nat.one_mul] at hr
  exact ⟨table, _, r, hsplit, hr⟩

theorem zero_notMem_secondWord (hs : 0 ∉ s) : 0 ∉ secondWord s := fun h =>
  hs (((List.takeWhile_sublist _).trans ((List.tail_sublist _).trans
    (List.dropWhile_sublist _))).subset h)

/-- A table that has been used before. -/
def usedTable : Buffer UInt8 (3 * FMT_LEN) :=
  ⟨List.replicate 299 1 ++ [0], by rw [List.length_append, List.length_replicate]; rfl⟩

/-- Without a space the second row is what it was. -/
theorem split_used (hs : 0 ∉ s) (hlen : s.length < FMT_LEN) (h32 : 32 ∉ s) (t : List UInt8) :
    ∃ table, strSplitDelim (s ++ 0 :: t) 32 usedTable = .ok (table, 1) ∧
      table.cells.drop FMT_LEN = 1 :: (List.replicate 198 1 ++ 0 :: []) := by
  obtain ⟨table, hwrite, hw⟩ := Buffer.write_ok Trap.wild usedTable (k := 0) (w := s ++ [0])
    (by simp [FMT_LEN] at hlen ⊢; omega)
  refine ⟨table, ?_, ?_⟩
  · rw [strSplitDelim_eq hs, pieces_of_notMem h32, writeRows, Nat.zero_mul, hwrite]
    rfl
  · have hdrop : table.cells.drop FMT_LEN = usedTable.cells.drop FMT_LEN := by
      refine List.ext_getElem? fun i => ?_
      rw [List.getElem?_drop, List.getElem?_drop, hw.frame _ (Or.inr (by simp; omega))]
    rw [hdrop]
    rfl

theorem syscallKill_iff (t : List UInt8) (hs : 0 ∉ s) (hlen : s.length < FMT_LEN) :
    (∀ b out, ∃ r, syscallKill (s ++ 0 :: t) b out = .ok r) ↔
      (1 ≤ s.count 32 ∧ s.count 32 ≤ 2) ∧ (secondWord s).length ≤ 2 := by
  have hword := zero_notMem_secondWord hs
  constructor
  · intro hall
    have h1 : 1 ≤ s.count 32 := by
      by_contra hnone
      have h32 : 32 ∉ s := List.count_eq_zero.1 (by omega)
      obtain ⟨table, hsplit, hrow⟩ := split_used hs hlen h32 t
      obtain ⟨r, hr⟩ := hall usedTable (.replicate 3 0)
      have hones : (0 : UInt8) ∉ List.replicate 198 1 := fun h =>
        absurd (List.eq_of_mem_replicate h) (by decide)
      have hlong : 2 < (List.replicate 198 (1 : UInt8)).length := by
        rw [List.length_replicate]
        omega
      rw [syscallKill_error _ hsplit hrow (by decide) hones hlong] at hr
      cases hr
    have h2 : s.count 32 ≤ 2 := by
      by_contra hmany
      obtain ⟨r, hr⟩ := hall (.replicate _ 0) (.replicate 3 0)
      rw [syscallKill, split_error _ hs (by omega)] at hr
      cases hr
    refine ⟨⟨h1, h2⟩, ?_⟩
    by_contra hlong
    obtain ⟨table, n, r, hsplit, hrow⟩ := split_second (.replicate _ 0) hs hlen
      (List.count_pos_iff.1 h1) h2 t
    obtain ⟨res, hres⟩ := hall (.replicate _ 0) (.replicate 3 0)
    rw [syscallKill_error _ hsplit hrow (by decide) hword (by omega)] at hres
    cases hres
  · rintro ⟨⟨h1, h2⟩, hshort⟩ b out
    obtain ⟨table, n, r, hsplit, hrow⟩ := split_second b hs hlen (List.count_pos_iff.1 h1) h2 t
    obtain ⟨r', heq⟩ := syscallKill_ok out hsplit hrow (by decide) hword hshort
    rw [heq]
    split_ifs
    · exact ⟨none, rfl⟩
    · obtain ⟨m, hm⟩ := atoi_ok r' hword
      exact ⟨some m, bind_eq_ok.2 ⟨m, hm, rfl⟩⟩

/-- The argument `-9`, and a number. -/
def killArg (pid : ℕ) : List UInt8 := chars ['-', '9', ' '] ++ numeral .dec pid

theorem secondWord_killArg (pid : ℕ) : secondWord (killArg pid) = numeral .dec pid := by
  have hdrop : (killArg pid).dropWhile (· ≠ 32) = 32 :: numeral .dec pid := rfl
  rw [secondWord, hdrop, List.tail_cons, List.takeWhile_eq_self_iff]
  intro c hc
  have := le_of_mem_numeral .dec pid hc
  simp
  rintro rfl
  exact absurd this (by decide)

theorem count_killArg (pid : ℕ) : (killArg pid).count 32 = 1 := by
  have hnone : (numeral .dec pid).count 32 = 0 :=
    List.count_eq_zero.2 (notMem_numeral .dec pid (by decide))
  rw [killArg, List.count_append, hnone]
  rfl

/-- A number of two digits is the process that is killed. -/
theorem syscallKill_pid (pid : Fin (2 ^ 31)) (b : Buffer UInt8 (3 * FMT_LEN)) (out : Buffer UInt8 3)
    (t : List UInt8) : syscallKill (killArg pid ++ 0 :: t) b out = .ok (some (pid : ℕ)) ↔
      (pid : ℕ) ≤ 99 := by
  have hnul : 0 ∉ killArg pid := by
    simpa [killArg, chars] using ⟨by decide, by decide, by decide, zero_notMem_numeral .dec pid⟩
  have hten : (numeral .dec pid).length ≤ 10 := by
    rw [length_numeral_le_iff .dec _ (by decide)]
    exact Nat.lt_of_lt_of_le pid.isLt (by decide)
  have htwo := length_numeral_le_iff .dec pid (k := 2) (by decide)
  have hcount := count_killArg pid
  obtain ⟨table, n, r, hsplit, hrow⟩ := split_second b hnul
    (by simp [killArg, chars, FMT_LEN]; omega) (List.count_pos_iff.1 (by omega)) (by omega) t
  rw [secondWord_killArg] at hrow
  have hword := zero_notMem_numeral .dec pid
  constructor
  · intro hkill
    by_contra hlong
    have : ¬ (numeral .dec pid).length ≤ 2 := fun h => hlong (Nat.le_of_lt_succ (htwo.1 h))
    rw [syscallKill_error _ hsplit hrow (by decide) hword (by omega)] at hkill
    cases hkill
  · intro hshort
    obtain ⟨r', heq⟩ := syscallKill_ok out hsplit hrow (by decide) hword
      (htwo.2 (Nat.lt_succ_of_le hshort))
    have hpos := length_numeral_pos .dec pid
    rw [heq, if_neg (by omega), atoi_numeral pid.isLt]
    rfl

/-! ## Command lines -/

/-- What the handlers need of the two parts of a line to keep inside of their arrays; and `kill` is
right for the processes below 100 only. -/
theorem handlers_iff (L : Line) (fs : Tarfs) (r t : List UInt8) :
    ((∀ c a, ∃ res, syscallExec fs (L.cmd ++ 0 :: r) (L.arg ++ 0 :: t) c a = .ok res) ↔
      L.cmd.length ≤ 45) ∧
    ((∀ b, ∃ name, syscallCat (L.arg ++ 0 :: t) b = .ok name) ↔ L.arg.count 32 ≤ 1) ∧
    ((∀ b, ∃ res, syscallSleep (L.arg ++ 0 :: t) b = .ok res) ↔ L.arg.count 32 ≤ 1) ∧
    ((∀ b out, ∃ res, syscallKill (L.arg ++ 0 :: t) b out = .ok res) ↔
      (1 ≤ L.arg.count 32 ∧ L.arg.count 32 ≤ 2) ∧ (secondWord L.arg).length ≤ 2) ∧
    ∀ (pid : Fin (2 ^ 31)) (b : Buffer UInt8 (3 * FMT_LEN)) (out : Buffer UInt8 3),
      syscallKill (killArg pid ++ 0 :: t) b out = .ok (some (pid : ℕ)) ↔ (pid : ℕ) ≤ 99 := by
  have hshort := L.short
  have harg : L.arg.length < 50 := by
    rcases L.length_text with ⟨-, h⟩ | h <;> omega
  have hrow : L.arg.length < FMT_LEN := Nat.lt_of_lt_of_le harg (by decide)
  have hnul := L.zero_notMem_arg
  exact ⟨syscallExec_iff fs r t L.zero_notMem_cmd hnul harg, syscallCat_iff t hnul hrow,
    syscallSleep_iff t hnul hrow, syscallKill_iff t hnul hrow,
    fun pid b out => syscallKill_pid pid b out t⟩

/-- The line `kill -9 100`: the third digit is stored behind `out`.  The line `cat a b c`: the third
row is stored behind the table. -/
theorem handlers_overrun :
    syscallKill (chars ['-', '9', ' ', '1', '0', '0'] ++ [0]) (.replicate _ 0) (.replicate _ 0)
      = .error .wild ∧
    syscallCat (chars ['a', ' ', 'b', ' ', 'c'] ++ [0]) (.replicate _ 0) = .error .wild := by
  have hnul : 0 ∉ chars ['-', '9', ' ', '1', '0', '0'] := by decide
  obtain ⟨table, n, r, hsplit, hrow⟩ := split_second (.replicate _ 0) hnul (by decide) (by decide)
    (by decide) []
  refine ⟨syscallKill_error _ hsplit hrow (by decide) (by decide) (by decide), ?_⟩
  rw [syscallCat, split_error _ (by decide) (by decide)]
  rfl

end Bgox
