import Bgox.Proofs.Format

/-!
# The output of programs

The array `sub` of the system call `write` has as many bytes as the string, and none for the 0 after
it.  So a string that is copied whole is stored beyond the array (`syscallWrite_whole`), and so is
one that is cut before its last byte; one that is cut earlier is one byte too long, since the end of
a substring is included (`syscallWrite_part`).  The library passes strings whole, so that every
`printf` and every `puts` stores outside of `sub` (`output_overruns`).
-/

namespace Bgox

open Keyboard (chars)
open Run (bind_eq_ok)

variable {f : Frame} {sub : ∀ n, Buffer UInt8 n} {s rest : List UInt8} {n stream : ℕ}

theorem syscallWrite_whole (hs : 0 ∉ s) (h : s.length ≤ n) :
    syscallWrite f sub stream (s ++ 0 :: rest) n = .error .wild := by
  have hcpy := strCpyInto_error (sub s.length) (strCpy_append hs rest) (Nat.le_refl _)
  simp only [syscallWrite, strLen_append hs, if_pos h, hcpy, bind, Except.bind]

theorem cut_eq (s rest : List UInt8) (n : ℕ) : s.take n ++ (s.drop n ++ rest) = s ++ rest := by
  rw [← List.append_assoc, List.take_append_drop]

/-- If more than the byte at `n` is left out, `sub` has room for the rest. -/
theorem syscallWrite_eq (f : Frame) (sub : ∀ n, Buffer UInt8 n) (rest : List UInt8) (hs : 0 ∉ s)
    (h : n + 1 < s.length) :
    ∃ more, syscallWrite f sub 1 (s ++ 0 :: rest) n = (do
      let printed ← kprintf f (37 :: 115 :: 0 :: []) [.ptr (s.take (n + 1) ++ 0 :: more)]
      return (printed, n + 1)) := by
  have hlen : (s.take (n + 1)).length = n + 1 := List.length_take_of_le (by omega)
  obtain ⟨sub', hsub, hhas⟩ := strSubstr_ok (u := []) (v := s.take (n + 1))
    (w := s.drop (n + 1) ++ 0 :: rest) (k := 0) (sub s.length) (i := 0) (j := n) rfl (by omega)
    (by omega)
  rw [List.nil_append, cut_eq] at hsub
  have hcount := strLen_cells hhas fun h0 => hs (List.mem_of_mem_take h0)
  rw [hlen] at hcount
  obtain ⟨more, hmore⟩ := exists_cells hhas
  refine ⟨more, ?_⟩
  simp only [syscallWrite, strLen_append hs, if_neg (show ¬ s.length ≤ n by omega), hsub, hcount,
    bind, Except.bind, pure, Except.pure]
  rw [hmore]
  rfl

/-- The byte at `n` is copied as well. -/
theorem syscallWrite_part (hs : 0 ∉ s) (h : n < s.length) :
    syscallWrite f sub 1 (s ++ 0 :: rest) n
      = if n + 1 < s.length ∧ n + 1 < FMT_LEN then .ok ([[], s.take (n + 1)], n + 1)
        else .error .wild := by
  have hlen : (s.take (n + 1)).length = n + 1 := List.length_take_of_le h
  by_cases hroom : n + 1 < s.length
  · obtain ⟨more, heq⟩ := syscallWrite_eq f sub rest hs hroom
    have htake : 0 ∉ s.take (n + 1) := fun h0 => hs (List.mem_of_mem_take h0)
    rw [heq]
    by_cases hfmt : n + 1 < FMT_LEN
    · have hprint := kprintf_single (d := .str (s.take (n + 1)) more) f [] htake
        (by rwa [Directive.expansion, hlen])
      rw [if_pos ⟨hroom, hfmt⟩]
      exact bind_eq_ok.2 ⟨_, hprint, rfl⟩
    · rw [if_neg (by omega), kprintf_str_error f [] more htake (by omega)]
      rfl
  · have hsub := strSubstr_error (u := []) (v := s.take (n + 1)) (w := s.drop (n + 1) ++ 0 :: rest)
      (k := 0) (sub s.length) (i := 0) (j := n) rfl (by omega) (by omega)
    rw [List.nil_append, cut_eq] at hsub
    rw [if_neg (by omega)]
    simp only [syscallWrite, strLen_append hs, if_neg (Nat.not_le.2 h), hsub, bind, Except.bind]

/-- The first `n` bytes are printed, or all if there are less, and counted. -/
def Honours (r : Except Trap (List (List UInt8) × ℕ)) (s : List UInt8) (n : ℕ) : Prop :=
  ∃ out, r = .ok (out, min n s.length) ∧ out.flatten = s.take (min n s.length)

/-- No count is honoured, for any string. -/
theorem write_dishonours (f : Frame) (sub : ∀ n, Buffer UInt8 n) (rest : List UInt8) (hs : 0 ∉ s)
    (n : ℕ) : ¬ Honours (syscallWrite f sub 1 (s ++ 0 :: rest) n) s n ∧
      (syscallWrite f sub 1 (s ++ 0 :: rest) n
        = if n + 1 < s.length ∧ n + 1 < FMT_LEN then .ok ([[], s.take (n + 1)], n + 1)
          else .error .wild) := by
  have heq : syscallWrite f sub 1 (s ++ 0 :: rest) n
      = if n + 1 < s.length ∧ n + 1 < FMT_LEN then .ok ([[], s.take (n + 1)], n + 1)
        else .error .wild := by
    rcases Nat.lt_or_ge n s.length with hlt | hge
    · exact syscallWrite_part hs hlt
    · rw [syscallWrite_whole hs hge, if_neg (by omega)]
  refine ⟨?_, heq⟩
  rintro ⟨out, hout, -⟩
  rw [heq] at hout
  split_ifs at hout with h
  simp only [Except.ok.injEq, Prod.mk.injEq] at hout
  omega

/-- Arrays of zeros, one for every length. -/
def subs (n : ℕ) : Buffer UInt8 n := .replicate n 0

theorem write_dishonours_hello :
    ¬ Honours (syscallWrite .zeros subs 1 (chars ['h', 'e', 'l', 'l', 'o'] ++ [0]) 2)
      (chars ['h', 'e', 'l', 'l', 'o']) 2 :=
  (write_dishonours .zeros subs [] (by decide) 2).1

/-- Two bytes are asked for, and three are printed; for all five of them there is no room. -/
theorem write_prints_three :
    syscallWrite .zeros subs 1 (chars ['h', 'e', 'l', 'l', 'o'] ++ [0]) 2
      = .ok ([[], chars ['h', 'e', 'l']], 3) ∧
    syscallWrite .zeros subs 1 (chars ['h', 'e', 'l', 'l', 'o'] ++ [0]) 5 = .error .wild := by
  refine ⟨?_, syscallWrite_whole (by decide) (by decide)⟩
  rw [syscallWrite_part (by decide) (by decide), if_pos (by decide)]
  rfl

/-! ## The library -/

variable {more : List UInt8}

theorem puts_error (hs : 0 ∉ s) : puts f sub (s ++ 0 :: more) = .error .wild := by
  rw [puts, strLen_append hs]
  exact syscallWrite_whole hs (Nat.le_refl _)

/-- What is in `write_buf` is passed on. -/
theorem printf_error {writeBuf b : Buffer UInt8 1024} {istr : Buffer UInt8 100} {str : List UInt8}
    {al : List Arg} (hbuf : printfBuf str al writeBuf istr = .ok b) (hb : strCpy b.cells = .ok s) :
    printf f sub writeBuf istr str al = .error .wild := by
  obtain ⟨hs, more, hmore⟩ := exists_of_strCpy hb
  simp only [printf, hbuf, bind, Except.bind, hmore, strLen_append hs, write]
  exact syscallWrite_whole hs (Nat.le_refl _)

/-- `printf` keeps inside of `write_buf`, and `kprintf` inside of its arrays for less than 100
bytes; it is the system call between them that does not. -/
theorem output_overruns (f : Frame) (sub : ∀ n, Buffer UInt8 n) (writeBuf : Buffer UInt8 1024)
    (istr : Buffer UInt8 100) (rest more : List UInt8) (hs : 0 ∉ s) (hlen : s.length < 1024) :
    printf f sub writeBuf istr (chars ['%', 's'] ++ 0 :: rest) [.ptr (s ++ 0 :: more)]
        = .error .wild ∧
    puts f sub (s ++ 0 :: more) = .error .wild ∧
    (∃ b, printfBuf (chars ['%', 's'] ++ 0 :: rest) [.ptr (s ++ 0 :: more)] writeBuf istr = .ok b ∧
      strCpy b.cells = .ok s) ∧
    ((∃ out, kprintf f (chars ['%', 's'] ++ 0 :: rest) [.ptr (s ++ 0 :: more)] = .ok out ∧
      out.flatten = s) ↔ s.length < FMT_LEN) := by
  obtain ⟨b, hbuf, hb⟩ := printf_single (d := .str s more) hs hlen writeBuf istr rest
  refine ⟨printf_error hbuf hb, puts_error hs, ⟨b, hbuf, hb⟩, ?_, fun hfmt => ?_⟩
  · rintro ⟨out, hout, -⟩
    by_contra hfmt
    have herror := kprintf_str_error f rest more hs (Nat.not_lt.1 hfmt)
    exact absurd (hout.symm.trans herror) (by simp)
  · exact ⟨_, kprintf_single (d := .str s more) f rest hs hfmt, by simp [Directive.expansion]⟩

theorem output_overruns_hello :
    puts .zeros subs (chars ['h', 'e', 'l', 'l', 'o'] ++ [0]) = .error .wild :=
  (output_overruns .zeros subs (.replicate _ 0) (.replicate _ 0) [] [] (by decide) (by decide)).2.1

/-- Printing a line of one byte. -/
theorem puts_leaves_sub :
    puts .zeros subs (chars ['a'] ++ [0]) = .error .wild ∧
    printf .zeros subs (.replicate _ 0) (.replicate _ 0) (chars ['%', 's'] ++ [0])
      [.ptr (chars ['a'] ++ [0])] = .error .wild := by
  obtain ⟨b, hbuf, hb⟩ := printf_single (d := .str (chars ['a']) [])
    (show 0 ∉ chars ['a'] by decide) (by decide) (.replicate _ 0) (.replicate _ 0) []
  exact ⟨puts_error (by decide), printf_error hbuf hb⟩

end Bgox
