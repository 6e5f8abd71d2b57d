import Mathlib.Data.Nat.Digits.Defs
import Bgox.Strings

/-!
# Strings and numbers

What the string functions do with a string in memory, and that `octTodec(atoi(..))` is the value of
a size field of a `tar` header: `atoi` reads its octal digits as decimal ones, and `octTodec` reads
the decimal digits of that number as octal ones.  That is so for the sizes below 0o2147500000, whose
octal digits make an `int` when they are read as decimal ones.
-/

namespace Bgox

variable {s t : List UInt8} {i k n : ℕ}

theorem int_of_lt {x : ℤ} (h0 : 0 ≤ x) (h : x < 2 ^ 31) : int x = x := by
  unfold int
  rw [Int.bmod_eq_of_le] <;> omega

theorem int_cases (x : ℤ) : x % 2 ^ 32 < 2 ^ 31 ∧ int x = x % 2 ^ 32 ∨
    2 ^ 31 ≤ x % 2 ^ 32 ∧ int x = x % 2 ^ 32 - 2 ^ 32 := by
  unfold int
  rw [Int.bmod_def]
  split_ifs
  · exact .inl ⟨by omega, by omega⟩
  · exact .inr ⟨by omega, by omega⟩

theorem int_mul_add (x y z : ℤ) : int (int x * y + z) = int (x * y + z) := by
  unfold int
  rw [← Int.bmod_add_bmod, Int.bmod_mul_bmod, Int.bmod_add_bmod]

/-! ## Strings -/

theorem strLen_append (hs : 0 ∉ s) (t : List UInt8) : strLen (s ++ 0 :: t) = .ok s.length := by
  induction s with
  | nil => rfl
  | cons c s ih =>
    obtain ⟨hc, hs⟩ := not_or.1 (mt List.mem_cons.2 hs)
    rw [List.cons_append, strLen, if_neg (Ne.symm hc), ih hs]
    rfl

theorem strCpy_append (hs : 0 ∉ s) (t : List UInt8) : strCpy (s ++ 0 :: t) = .ok s := by
  induction s with
  | nil => rfl
  | cons c s ih =>
    obtain ⟨hc, hs⟩ := not_or.1 (mt List.mem_cons.2 hs)
    rw [List.cons_append, strCpy, if_neg (Ne.symm hc), ih hs]
    rfl

/-- A string that was copied. -/
theorem exists_of_strCpy : ∀ {m s : List UInt8}, strCpy m = .ok s → 0 ∉ s ∧ ∃ t, m = s ++ 0 :: t
  | [], _, h => by cases h
  | c :: m, s, h => by
    rw [strCpy] at h
    split_ifs at h with hc
    · obtain rfl := Except.ok.inj h
      exact ⟨by simp, m, by simp [hc]⟩
    · rcases hm : strCpy m with e | s'
      · rw [hm] at h
        cases h
      · rw [hm] at h
        obtain rfl := Except.ok.inj h
        obtain ⟨hs, t, rfl⟩ := exists_of_strCpy hm
        exact ⟨by simpa using ⟨Ne.symm hc, hs⟩, t, rfl⟩

theorem strLen_of_notMem (hs : 0 ∉ s) : strLen s = .error .wild := by
  induction s with
  | nil => rfl
  | cons c s ih =>
    obtain ⟨hc, hs⟩ := not_or.1 (mt List.mem_cons.2 hs)
    rw [strLen, if_neg (Ne.symm hc), ih hs]
    rfl

theorem strLen_lt {n : ℕ} (h : strLen s = .ok n) : n < s.length := by
  by_cases hs : 0 ∈ s
  · obtain ⟨a, t, rfl, ha⟩ := List.eq_append_cons_of_mem hs
    rw [strLen_append ha] at h
    obtain rfl := Except.ok.inj h
    simp
  · rw [strLen_of_notMem hs] at h
    cases h

theorem strCmp_eq_one : ∀ {s t : List UInt8}, strCmp s t = 1 ↔ s = t
  | [], [] => by simp [strCmp]
  | [], _ :: _ => by simp [strCmp]
  | _ :: _, [] => by simp [strCmp]
  | c :: s, d :: t => by
    rw [strCmp, List.cons.injEq]
    split_ifs with hcd
    · rw [strCmp_eq_one]
      exact (and_iff_right hcd).symm
    · simp [hcd]

/-- A decimal digit that `atoi` reads. -/
theorem atoiFrom_digit {d : ℕ} (hd : d < 10) (res : ℤ) (s : List UInt8) :
    atoiFrom res (UInt8.ofNat (48 + d) :: s) = atoiFrom (int (res * 10 + d)) s := by
  have hdigit : UInt8.ofNat (48 + d) ≠ 0 ∧ char (UInt8.ofNat (48 + d)) = 48 + (d : ℕ) :=
    (by decide : ∀ d < 10, UInt8.ofNat (48 + d) ≠ 0 ∧
      char (UInt8.ofNat (48 + d)) = 48 + (d : ℕ)) d hd
  rw [atoiFrom, if_neg hdigit.1, hdigit.2, Int.add_sub_assoc, Int.add_comm 48, Int.add_sub_cancel]

/-! ## Octal numbers -/

theorem pow_eq (x : ℕ) : ∀ n, pow x n = x ^ n % 2 ^ 64
  | 0 => rfl
  | n + 1 => by rw [pow, pow_eq x n, Nat.mul_mod_mod, ← Nat.pow_succ']

/-- The number with the octal digits of `n` as its decimal ones. -/
def readAsDecimal (n : ℕ) : ℕ := Nat.ofDigits 10 (Nat.digits 8 n)

theorem readAsDecimal_eq (n : ℕ) : readAsDecimal n = n % 8 + 10 * readAsDecimal (n / 8) := by
  rcases Nat.eq_zero_or_pos n with rfl | hn
  · rfl
  · rw [readAsDecimal, Nat.digits_def' (by decide) hn, Nat.ofDigits_cons]
    rfl

theorem readAsDecimal_lt : ∀ {k n : ℕ}, n < 8 ^ k → readAsDecimal n < 10 ^ k
  | 0, n, h => by
    obtain rfl : n = 0 := by simpa using h
    decide
  | k + 1, n, h => by
    have hdiv : n / 8 < 8 ^ k := by
      rw [Nat.pow_succ] at h
      omega
    have := readAsDecimal_lt hdiv
    rw [readAsDecimal_eq, Nat.pow_succ]
    omega

theorem le_readAsDecimal (n : ℕ) : n ≤ readAsDecimal n := by
  induction n using Nat.strong_induction_on with
  | _ n ih =>
    rcases Nat.eq_zero_or_pos n with rfl | hn
    · exact Nat.zero_le _
    · have := ih (n / 8) (by omega)
      rw [readAsDecimal_eq]
      omega

theorem readAsDecimal_strictMono : StrictMono readAsDecimal := by
  intro m n
  induction n using Nat.strong_induction_on generalizing m with
  | _ n ih =>
    intro hlt
    have hm := readAsDecimal_eq m
    have hn := readAsDecimal_eq n
    rcases Nat.lt_or_eq_of_le (Nat.div_le_div_right (c := 8) (Nat.le_of_lt hlt)) with hdiv | hdiv
    · have := ih (n / 8) (by omega) hdiv
      omega
    · rw [hdiv] at hm
      omega

/-- The digits of the greatest number that makes an `int` are those of 2147477777. -/
theorem readAsDecimal_lt_int : readAsDecimal n < 2 ^ 31 ↔ n < 0o2147500000 := by
  have hlast : readAsDecimal 0o2147477777 = 2147477777 := by decide
  have hnext : readAsDecimal 0o2147500000 = 2147500000 := by decide
  constructor
  · intro hlt
    by_contra hge
    have := readAsDecimal_strictMono.monotone (Nat.le_of_not_lt hge)
    omega
  · intro hlt
    have := readAsDecimal_strictMono.monotone (show n ≤ 0o2147477777 by omega)
    omega

/-- The number with the decimal digits of `m` as its octal ones; these may be 8 and 9 here. -/
def readAsOctal (m : ℕ) : ℕ := Nat.ofDigits 8 (Nat.digits 10 m)

theorem readAsOctal_eq (m : ℕ) : readAsOctal m = m % 10 + 8 * readAsOctal (m / 10) := by
  rcases Nat.eq_zero_or_pos m with rfl | hm
  · rfl
  · rw [readAsOctal, Nat.digits_def' (by decide) hm, Nat.ofDigits_cons]
    rfl

theorem readAsOctal_readAsDecimal (n : ℕ) : readAsOctal (readAsDecimal n) = n := by
  induction n using Nat.strong_induction_on with
  | _ n ih =>
    rcases Nat.eq_zero_or_pos n with rfl | hn
    · rfl
    · have hstep := readAsDecimal_eq n
      -- the digit that is read, and the number that is left
      have hmod : readAsDecimal n % 10 = n % 8 := by omega
      have hdiv : readAsDecimal n / 10 = readAsDecimal (n / 8) := by omega
      rw [readAsOctal_eq, hmod, hdiv, ih _ (by omega)]
      omega

theorem readAsOctal_pos {m : ℕ} (hm : 0 < m) : 0 < readAsOctal m := by
  induction m using Nat.strong_induction_on with
  | _ m ih =>
    rw [readAsOctal_eq]
    rcases Nat.eq_zero_or_pos (m / 10) with hdiv | hdiv
    · omega
    · have := ih _ (by omega) hdiv
      omega

theorem le_readAsOctal : ∀ {k m : ℕ}, 10 ^ k ≤ m → 8 ^ k ≤ readAsOctal m
  | 0, _, h => readAsOctal_pos h
  | k + 1, m, h => by
    have hdiv : 10 ^ k ≤ m / 10 := by
      rw [Nat.pow_succ] at h
      omega
    have := le_readAsOctal hdiv
    rw [readAsOctal_eq, Nat.pow_succ]
    omega

/-- The largest value has nines behind the first digit. -/
theorem readAsOctal_le {a : ℕ} (ha : a ≤ 10) : ∀ {k m : ℕ}, m < a * 10 ^ k →
    7 * readAsOctal m + 9 ≤ (7 * a + 2) * 8 ^ k
  | 0, m, h => by
    have hzero : readAsOctal 0 = 0 := rfl
    rw [readAsOctal_eq, Nat.div_eq_of_lt (by omega), hzero]
    omega
  | k + 1, m, h => by
    have hdiv : m / 10 < a * 10 ^ k := by
      rw [Nat.pow_succ, ← Nat.mul_assoc] at h
      omega
    have := readAsOctal_le ha hdiv
    rw [readAsOctal_eq, Nat.pow_succ, ← Nat.mul_assoc]
    omega

theorem octTodecFrom_eq (octal : ℕ) : ∀ i decimal, decimal < 2 ^ 64 →
    octTodecFrom octal i decimal = (decimal + readAsOctal octal * 8 ^ i) % 2 ^ 64 := by
  induction octal using Nat.strong_induction_on with
  | _ octal ih =>
    intro i decimal hlt
    rcases Nat.eq_zero_or_pos octal with rfl | hpos
    · have hzero : readAsOctal 0 = 0 := rfl
      rw [octTodecFrom, if_pos rfl, hzero, Nat.zero_mul, Nat.add_zero, Nat.mod_eq_of_lt hlt]
    · have hsplit : readAsOctal octal * 8 ^ i
          = octal % 10 * 8 ^ i + readAsOctal (octal / 10) * 8 ^ (i + 1) := by
        rw [readAsOctal_eq octal, Nat.pow_succ', Nat.add_mul, ← Nat.mul_assoc,
          Nat.mul_comm 8 (readAsOctal _)]
      have hpow : octal % 10 * pow 8 i % 2 ^ 64 = octal % 10 * 8 ^ i % 2 ^ 64 := by
        rw [pow_eq, Nat.mul_mod_mod]
      rw [octTodecFrom, if_neg (by omega),
        ih (octal / 10) (by omega) _ _ (Nat.mod_lt _ (by decide)), hsplit]
      omega

theorem octTodec_eq (x : ℤ) : octTodec x = readAsOctal (x % 2 ^ 64).toNat % 2 ^ 64 := by
  rw [octTodec, octTodecFrom_eq _ _ _ (by decide), Nat.zero_add, Nat.pow_zero, Nat.mul_one]

/-- The last `k` octal digits of `n`, as text. -/
def octDigits : ℕ → ℕ → List UInt8
  | 0, _ => []
  | k + 1, n => octDigits k (n / 8) ++ [UInt8.ofNat (48 + n % 8)]

theorem length_octDigits : ∀ k n, (octDigits k n).length = k
  | 0, _ => rfl
  | k + 1, n => by rw [octDigits, List.length_append, length_octDigits k]; rfl

theorem atoiFrom_octDigits : ∀ {k n : ℕ} (t : List UInt8), n < 8 ^ k →
    atoiFrom 0 (octDigits k n ++ t) = atoiFrom (int (readAsDecimal n)) t
  | 0, n, t, h => by
    obtain rfl : n = 0 := by simpa using h
    rfl
  | k + 1, n, t, h => by
    have hdiv : n / 8 < 8 ^ k := by
      rw [Nat.pow_succ] at h
      omega
    have hstep : (readAsDecimal (n / 8) : ℤ) * 10 + (n % 8 : ℕ) = readAsDecimal n := by
      rw [readAsDecimal_eq n]
      omega
    rw [octDigits, List.append_assoc, atoiFrom_octDigits _ hdiv, List.cons_append,
      List.nil_append, atoiFrom_digit (by omega), int_mul_add, hstep]

theorem minus_notMem_octDigits : ∀ k n, 45 ∉ octDigits k n
  | 0, _ => by simp [octDigits]
  | k + 1, n => by
    have hdigit : UInt8.ofNat (48 + n % 8) ≠ 45 :=
      (by decide : ∀ d < 8, UInt8.ofNat (48 + d) ≠ 45) _ (Nat.mod_lt _ (by decide))
    rw [octDigits, List.mem_append, List.mem_singleton, not_or]
    exact ⟨minus_notMem_octDigits k _, Ne.symm hdigit⟩

theorem atoi_of_ne {c : UInt8} (hc : c ≠ 45) (s : List UInt8) :
    atoi (c :: s) = atoiFrom 0 (c :: s) := by
  unfold atoi
  split
  · next h => exact absurd (List.cons.inj h).1 hc
  · rfl

/-- What `atoi` reads in a size field. -/
theorem atoi_octDigits (hk : n < 8 ^ (k + 1)) (t : List UInt8) :
    atoi (octDigits (k + 1) n ++ 0 :: t) = .ok (int (readAsDecimal n)) := by
  have hread := atoiFrom_octDigits (0 :: t) hk
  have hminus := minus_notMem_octDigits (k + 1) n
  rcases hd : octDigits (k + 1) n with _ | ⟨c, s⟩
  · simp [octDigits] at hd
  · rw [hd] at hread hminus
    rw [List.cons_append, atoi_of_ne (by rintro rfl; simp at hminus)]
    exact hread

/-- The value of a size field, for sizes whose octal digits make an `int`. -/
theorem octTodec_atoi (hk : n < 8 ^ (k + 1)) (hlt : readAsDecimal n < 2 ^ 31) (t : List UInt8) :
    ∃ x, atoi (octDigits (k + 1) n ++ 0 :: t) = .ok x ∧ octTodec x = n := by
  refine ⟨_, atoi_octDigits hk t, ?_⟩
  have hle := le_readAsDecimal n
  have hmod : ((readAsDecimal n : ℤ) % 2 ^ 64).toNat = readAsDecimal n := by omega
  rw [int_of_lt (by omega) (by omega), octTodec_eq, hmod, readAsOctal_readAsDecimal]
  omega

/-- Digits that do not make an `int` are lost: what is left of them is negative and its value too
large, or it is short of the first digit. -/
theorem octTodec_int_ne (hn : n < 2 ^ 31) (hge : 2 ^ 31 ≤ readAsDecimal n) :
    octTodec (int (readAsDecimal n)) ≠ n := by
  rw [octTodec_eq]
  rcases int_cases (readAsDecimal n) with ⟨hlt, hint⟩ | ⟨hge, hint⟩
  · have hfour : readAsDecimal (4 * 8 ^ 9) = 4 * 10 ^ 9 := by decide
    have hlarge : 4 * 8 ^ 9 ≤ n := by
      by_contra hsmall
      have := readAsDecimal_strictMono (Nat.lt_of_not_le hsmall)
      omega
    have hle := readAsOctal_le (a := 3) (by decide) (k := 9)
      (show (int (readAsDecimal n) % 2 ^ 64).toNat < 3 * 10 ^ 9 by omega)
    omega
  · have hge := le_readAsOctal (k := 19)
      (show 10 ^ 19 ≤ (int (readAsDecimal n) % 2 ^ 64).toNat by omega)
    have hle := readAsOctal_le (a := 2) (by decide) (k := 19)
      (show (int (readAsDecimal n) % 2 ^ 64).toNat < 2 * 10 ^ 19 by omega)
    omega

/-- A size field is read right exactly if its octal digits make an `int`. -/
theorem octTodec_atoi_iff (hn : n < 2 ^ 31) (t : List UInt8) :
    (∃ x, atoi (octDigits 11 n ++ 0 :: t) = .ok x ∧ octTodec x = n) ↔ n < 0o2147500000 := by
  have hk : n < 8 ^ 11 := by omega
  rw [← readAsDecimal_lt_int]
  constructor
  · rintro ⟨x, hatoi, hx⟩
    obtain rfl := Except.ok.inj ((atoi_octDigits hk t).symm.trans hatoi)
    by_contra hge
    exact octTodec_int_ne hn (Nat.le_of_not_lt hge) hx
  · exact fun hlt => octTodec_atoi hk hlt t

theorem octTodec_atoi_mebibyte : ∃ x, atoi (octDigits 11 (2 ^ 20) ++ [0]) = .ok x ∧
    octTodec x = 2 ^ 20 :=
  (octTodec_atoi_iff (n := 2 ^ 20) (by decide) []).2 (by decide)

/-- The number 2147500000 is -2147467296 as an `int`. -/
theorem octTodec_atoi_fails : atoi (octDigits 11 0o2147500000 ++ [0]) = .ok (-2147467296) ∧
    octTodec (-2147467296) ≠ 0o2147500000 := by
  have hint : int (readAsDecimal 0o2147500000) = -2147467296 := by decide
  have hatoi := atoi_octDigits (k := 10) (n := 0o2147500000) (by decide) []
  rw [hint] at hatoi
  refine ⟨hatoi, ?_⟩
  rw [← hint]
  exact octTodec_int_ne (by decide) (by decide)

end Bgox
