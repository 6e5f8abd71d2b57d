import Bgox.Proofs.Arrays

/-!
# Numbers as text

`itoap` stores the digits of a number from the last to the first and turns them round; `itoa` stores
them from the end of its array down.  Both leave the numeral of the number (`numeral`) behind,
whose value is that number again (`evalDigits_numeral`).
-/

namespace Bgox

open Keyboard (chars)

/-- The digits of a number. -/
def numeral (base : Base) (num : ℕ) : List UInt8 := chars (Nat.toDigits base.val num)

variable {base : Base} {num : ℕ}

theorem one_lt_val (base : Base) : 1 < base.val := by cases base <;> decide

theorem numeral_of_lt (h : num < base.val) : numeral base num = [(Nat.digitChar num).toUInt8] := by
  rw [numeral, Nat.toDigits_of_lt_base h]
  rfl

theorem numeral_of_le (h : base.val ≤ num) : numeral base num
    = numeral base (num / base.val) ++ [(Nat.digitChar (num % base.val)).toUInt8] := by
  rw [numeral, Nat.toDigits_of_base_le (one_lt_val base) h]
  simp [numeral, chars]

/-- The last digit, and what is in front of it. -/
theorem numeral_eq (base : Base) (num : ℕ) : numeral base num
    = (if num / base.val = 0 then [] else numeral base (num / base.val))
      ++ [(Nat.digitChar (num % base.val)).toUInt8] := by
  have hval := one_lt_val base
  split_ifs with hdiv
  · have hlt : num < base.val := (Nat.div_eq_zero_iff_lt (by omega)).1 hdiv
    rw [numeral_of_lt hlt, Nat.mod_eq_of_lt hlt]
    rfl
  · refine numeral_of_le (Nat.le_of_not_lt fun hlt => hdiv ?_)
    exact Nat.div_eq_of_lt hlt

@[simp] theorem numeral_zero (base : Base) : numeral base 0 = [48] := by cases base <;> rfl

theorem length_numeral_pos (base : Base) (num : ℕ) : 0 < (numeral base num).length := by
  simp [numeral, chars, Nat.length_toDigits_pos]

theorem length_numeral_le_iff (base : Base) (num : ℕ) {k : ℕ} (hk : 0 < k) :
    (numeral base num).length ≤ k ↔ num < base.val ^ k := by
  rw [numeral, chars, List.length_map, Nat.length_toDigits_le_iff (one_lt_val base) hk]

/-- No number of 64 bits has more than 20 digits. -/
theorem length_numeral_le (base : Base) (v : UInt64) : (numeral base v.toNat).length ≤ 20 := by
  rw [length_numeral_le_iff base _ (by decide)]
  refine Nat.lt_of_lt_of_le v.toNat_lt ?_
  cases base <;> decide

theorem le_digitChar {d : ℕ} (h : d < base.val) : 48 ≤ (Nat.digitChar d).toUInt8 := by
  have hall : ∀ d < 16, 48 ≤ (Nat.digitChar d).toUInt8 := by decide
  refine hall d (Nat.lt_of_lt_of_le h ?_)
  cases base <;> decide

/-- A digit is neither a 0 nor a space nor a sign: these come before the digits. -/
theorem le_of_mem_numeral (base : Base) {c : UInt8} : ∀ num, c ∈ numeral base num → 48 ≤ c := by
  intro num
  induction num using Nat.strong_induction_on with
  | _ num ih =>
    intro hc
    by_cases hlt : num < base.val
    · rw [numeral_of_lt hlt, List.mem_singleton] at hc
      rw [hc]
      exact le_digitChar hlt
    · have hval := one_lt_val base
      rw [numeral_of_le (Nat.le_of_not_lt hlt), List.mem_append, List.mem_singleton] at hc
      rcases hc with hc | rfl
      · exact ih _ (Nat.div_lt_self (by omega) hval) hc
      · exact le_digitChar (Nat.mod_lt _ (by omega))

theorem notMem_numeral (base : Base) (num : ℕ) {c : UInt8} (hc : c < 48) : c ∉ numeral base num :=
  fun h => absurd (le_of_mem_numeral base num h) (UInt8.not_le.2 hc)

theorem zero_notMem_numeral (base : Base) (num : ℕ) : 0 ∉ numeral base num :=
  notMem_numeral base num (by decide)

/-- What `atoi` reads of a number. -/
theorem atoiFrom_numeral : ∀ {num : ℕ} (t : List UInt8), num < 2 ^ 31 →
    atoiFrom 0 (numeral .dec num ++ t) = atoiFrom num t := by
  intro num
  induction num using Nat.strong_induction_on with
  | _ num ih =>
    intro t hnum
    have hdigit : (Nat.digitChar (num % 10)).toUInt8 = UInt8.ofNat (48 + num % 10) :=
      (by decide : ∀ d < 10, (Nat.digitChar d).toUInt8 = UInt8.ofNat (48 + d))
        _ (Nat.mod_lt _ (by decide))
    have hfront : atoiFrom 0 ((if num / 10 = 0 then [] else numeral .dec (num / 10))
        ++ ((Nat.digitChar (num % 10)).toUInt8 :: t))
          = atoiFrom (num / 10 : ℕ) ((Nat.digitChar (num % 10)).toUInt8 :: t) := by
      split_ifs with hdiv
      · rw [hdiv]
        rfl
      · exact ih _ (by omega) _ (by omega)
    have hnext : ((num / 10 : ℕ) : ℤ) * 10 + (num % 10 : ℕ) = num := by omega
    rw [numeral_eq, Base.val, List.append_assoc, List.singleton_append, hfront, hdigit,
      atoiFrom_digit (Nat.mod_lt _ (by decide)), hnext, int_of_lt (by omega) (by omega)]

theorem atoi_numeral {num : ℕ} (h : num < 2 ^ 31) (t : List UInt8) :
    atoi (numeral .dec num ++ 0 :: t) = .ok num := by
  have hread := atoiFrom_numeral (0 :: t) h
  obtain ⟨c, s, hcs⟩ := List.exists_cons_of_length_pos (length_numeral_pos .dec num)
  have hc : c ≠ 45 := by
    rintro rfl
    exact notMem_numeral .dec num (c := 45) (by decide) (by simp [hcs])
  rw [hcs, List.cons_append] at hread ⊢
  rw [atoi_of_ne hc, hread]
  rfl

/-! ## `itoap` -/

theorem digit_eq {d : ℕ} (h : d < base.val) : base.digit d = (Nat.digitChar d).toUInt8 := by
  revert d
  cases base <;> decide

theorem itoapLoop_ok (base : Base) : ∀ (num i : ℕ) (dest : Buffer UInt8 FMT_LEN), num ≠ 0 →
    i + (numeral base num).length ≤ FMT_LEN → ∃ dest',
      itoapLoop base num i dest = .ok (dest', i + (numeral base num).length) ∧
      dest.Written dest' i (numeral base num).reverse := by
  intro num
  induction num using Nat.strong_induction_on with
  | _ num ih =>
    intro i dest hnum hlen
    have hmod : num % base.val < base.val := Nat.mod_lt _ (Nat.lt_of_succ_lt (one_lt_val base))
    obtain ⟨dest₁, hstore, hcells⟩ := Buffer.store_eq (b := dest) (e := Trap.wild)
      (show i < FMT_LEN by have := length_numeral_pos base num; omega)
      (base.digit (num % base.val))
    rw [itoapLoop, dif_neg hnum, hstore]
    simp only [bind, Except.bind]
    rw [numeral_eq base num] at hlen ⊢
    rw [digit_eq hmod] at hcells
    by_cases hdiv : num / base.val = 0
    · simp only [if_pos hdiv, List.nil_append, List.length_singleton,
        List.reverse_singleton] at hlen ⊢
      refine ⟨dest₁, ?_, (Buffer.Written.refl dest₁ (i + 1)).cons (by omega) hcells⟩
      rw [hdiv, itoapLoop, dif_pos rfl]
    · simp only [if_neg hdiv, List.length_append, List.length_singleton, List.reverse_append,
        List.reverse_singleton, List.singleton_append] at hlen ⊢
      obtain ⟨dest', hloop, hw⟩ := ih _ (base.div_val_lt hnum) (i + 1) dest₁ hdiv (by omega)
      refine ⟨dest', ?_, hw.cons (by omega) hcells⟩
      rw [hloop, Nat.add_assoc, Nat.add_comm 1]

theorem itoap_ok (num : UInt64) (dest : Buffer UInt8 FMT_LEN) (base : Base)
    (tr : Buffer UInt8 FMT_LEN) : ∃ dest' ret, itoap num dest base tr = .ok (dest', ret) ∧
      dest'.Has 0 (numeral base num.toNat ++ [0]) := by
  have hlen := length_numeral_le base num
  have hnul := zero_notMem_numeral base num.toNat
  by_cases hnum : num = 0
  · obtain ⟨dest', hwrite, hw⟩ := Buffer.write_ok Trap.wild dest (k := 0) (w := [48, 0]) (by decide)
    refine ⟨dest', 2, ?_, ?_⟩
    · rw [itoap, if_pos hnum, hwrite]
      rfl
    · rw [hnum]
      simpa using hw.has
  · have hnat : num.toNat ≠ 0 := fun h => hnum (UInt64.toNat_inj.1 h)
    obtain ⟨dest₁, hloop, hw₁⟩ := itoapLoop_ok base num.toNat 0 dest hnat
      (by simp only [FMT_LEN]; omega)
    rw [Nat.zero_add] at hloop
    obtain ⟨dest₂, hwrite, hw₂⟩ := Buffer.write_ok Trap.wild dest₁
      (k := (numeral base num.toNat).length) (w := [0])
      (by simp only [FMT_LEN, List.length_singleton]; omega)
    have hrev : 0 ∉ (numeral base num.toNat).reverse := by simpa using hnul
    have hlow : dest₂.Has 0 ((numeral base num.toNat).reverse ++ [0]) := by
      refine Buffer.has_append.2 ⟨hw₂.keeps hw₁.has (by simp), ?_⟩
      rw [List.length_reverse, Nat.zero_add]
      exact hw₂.has
    obtain ⟨tr', hcpy, htr⟩ := strCpyInto_ok tr (strCpy_cells hlow hrev)
      (by simp only [FMT_LEN, List.length_reverse]; omega)
    obtain ⟨dest', hturn, hw⟩ := Buffer.write_ok Trap.wild dest₂ (k := 0)
      (w := numeral base num.toNat ++ [0])
      (by simp only [FMT_LEN, List.length_append, List.length_singleton]; omega)
    have hneg : ¬ (num < 0 ∧ base = .dec) := by simp
    refine ⟨dest', (numeral base num.toNat).length, ?_, hw.has⟩
    simp only [itoap, if_neg hnum, if_neg hneg, hloop, hwrite, bind, Except.bind, hcpy, strReverse,
      strCpy_cells htr hrev, List.reverse_reverse, hturn, strLen_cells hw.has hnul]
    rfl

/-! ## `itoa` -/

theorem digitChars_getD {d : ℕ} (h : d < base.val) :
    digitChars.getD d 0 = (Nat.digitChar d).toUInt8 := by
  revert d
  cases base <;> decide

theorem itoaLoop_ok {n : ℕ} (base : Base) : ∀ (num p : ℕ) (buf : Buffer UInt8 n), num ≠ 0 →
    (numeral base num).length ≤ p → p ≤ n → ∃ buf',
      itoaLoop base num p buf = .ok (buf', (p - (numeral base num).length : ℕ)) ∧
      buf.Written buf' (p - (numeral base num).length) (numeral base num) := by
  intro num
  induction num using Nat.strong_induction_on with
  | _ num ih =>
    intro p buf hnum hlen hp
    have hmod : num % base.val < base.val := Nat.mod_lt _ (Nat.lt_of_succ_lt (one_lt_val base))
    have hpos := length_numeral_pos base num
    obtain ⟨buf₁, hstore, hcells⟩ := Buffer.store_eq (b := buf) (e := Trap.wild)
      (show p - 1 < n by omega) (digitChars.getD (num % base.val) 0)
    have hcast : ((p : ℤ) - 1) = ((p - 1 : ℕ) : ℤ) := by omega
    rw [itoaLoop, dif_neg hnum, hcast, hstore]
    simp only [bind, Except.bind]
    rw [numeral_eq base num] at hlen ⊢
    rw [digitChars_getD hmod] at hcells
    by_cases hdiv : num / base.val = 0
    · simp only [if_pos hdiv, List.nil_append, List.length_singleton] at hlen ⊢
      refine ⟨buf₁, ?_, (Buffer.Written.refl buf₁ _).concat ?_ hcells⟩
      · rw [hdiv, itoaLoop, dif_pos rfl]
      · simp only [List.length_nil]
        omega
    · simp only [if_neg hdiv, List.length_append, List.length_singleton] at hlen ⊢
      obtain ⟨buf', hloop, hw⟩ := ih _ (base.div_val_lt hnum) (p - 1) buf₁ hdiv (by omega)
        (by omega)
      have hplace : p - 1 - (numeral base (num / base.val)).length
          = p - ((numeral base (num / base.val)).length + 1) := by omega
      rw [hplace] at hloop hw
      refine ⟨buf', hloop, hw.concat (by omega) ?_⟩
      rw [hcells, show p - ((numeral base (num / base.val)).length + 1)
        + (numeral base (num / base.val)).length = p - 1 by omega]

theorem itoa_has {n p : ℕ} (val : UInt64) (base : Base) (buf : Buffer UInt8 n)
    (hlen : (numeral base val.toNat).length ≤ p) (hn : p < n) : ∃ buf', itoa val p base buf
        = .ok (buf', (p - (numeral base val.toNat).length : ℕ)) ∧
      buf'.Has (p - (numeral base val.toNat).length) (numeral base val.toNat ++ [0]) := by
  have hpos := length_numeral_pos base val.toNat
  obtain ⟨buf₀, hstore, hcells⟩ := Buffer.store_eq (b := buf) (e := Trap.wild) hn 0
  by_cases hval : val = 0
  · subst hval
    obtain ⟨buf', hstore', hcells'⟩ := Buffer.store_eq (b := buf₀) (e := Trap.wild)
      (show p - 1 < n by omega) 48
    have hcast : ((p : ℤ) - 1) = ((p - 1 : ℕ) : ℤ) := by omega
    refine ⟨buf', ?_, ?_⟩
    · simp only [itoa, hstore, bind, Except.bind, if_pos, hcast, hstore']
      simp [pure, Except.pure]
    · have hw : buf₀.Written buf' (p - 1) [48] :=
        (Buffer.Written.refl buf' (p - 1)).concat (by simp; omega) hcells'
      have hw' : buf.Written buf' (p - 1) ([48] ++ [0]) := by
        refine hw.concat (by simp; omega) ?_
        rw [hcells, List.length_singleton, Nat.sub_add_cancel (by omega)]
      simpa using hw'.has
  · have hnat : val.toNat ≠ 0 := fun h => hval (UInt64.toNat_inj.1 h)
    obtain ⟨buf', hloop, hw⟩ := itoaLoop_ok base val.toNat p buf₀ hnat (by omega) (by omega)
    have hw' : buf.Written buf' (p - (numeral base val.toNat).length)
        (numeral base val.toNat ++ [0]) := by
      refine hw.concat (by omega) ?_
      rw [hcells, Nat.sub_add_cancel (by omega)]
    refine ⟨buf', ?_, hw'.has⟩
    simp only [itoa, hstore, bind, Except.bind, if_neg hval, hloop]

theorem itoa_ok {n p : ℕ} (val : UInt64) (base : Base) (buf : Buffer UInt8 n) (hp : 20 ≤ p)
    (hn : p < n) : ∃ buf', itoa val p base buf
        = .ok (buf', (p - (numeral base val.toNat).length : ℕ)) ∧
      buf'.Has (p - (numeral base val.toNat).length) (numeral base val.toNat ++ [0]) :=
  itoa_has val base buf (Nat.le_trans (length_numeral_le base val) hp) hn

/-! ## The value of a numeral -/

/-- The value of a character as a digit. -/
def Base.digitValue (base : Base) (c : UInt8) : Option ℕ :=
  (List.range base.val).find? fun d => (Nat.digitChar d).toUInt8 = c

/-- The value of a string of digits. -/
def evalDigits (base : Base) (s : List UInt8) : Option ℕ :=
  s.foldlM (fun num c => (base.digitValue c).map (num * base.val + ·)) 0

theorem digitValue_digitChar {d : ℕ} (h : d < base.val) :
    base.digitValue (Nat.digitChar d).toUInt8 = some d := by
  revert d
  cases base <;> decide

theorem evalDigits_concat (s : List UInt8) (c : UInt8) : evalDigits base (s ++ [c])
    = (evalDigits base s).bind fun num => (base.digitValue c).map (num * base.val + ·) := by
  simp [evalDigits, List.foldlM_append]

theorem evalDigits_numeral (base : Base) (num : ℕ) : evalDigits base (numeral base num) = num := by
  induction num using Nat.strong_induction_on with
  | _ num ih =>
    have hval := one_lt_val base
    have hfront : evalDigits base (if num / base.val = 0 then [] else numeral base (num / base.val))
        = some (num / base.val) := by
      split_ifs with hdiv
      · rw [hdiv]
        rfl
      · refine ih _ (base.div_val_lt ?_)
        rintro rfl
        simp at hdiv
    rw [numeral_eq, evalDigits_concat, hfront, Option.bind_some,
      digitValue_digitChar (Nat.mod_lt _ (by omega)), Option.map_some, Nat.div_add_mod']

/-- Only 0 has a numeral that begins with a `0`. -/
theorem eq_zero_of_head (base : Base) {num : ℕ} (h : (numeral base num).head? = some 48) :
    num = 0 := by
  induction num using Nat.strong_induction_on with
  | _ num ih =>
    have hval := one_lt_val base
    by_cases hlt : num < base.val
    · rw [numeral_of_lt hlt] at h
      have hzero : base.digitValue 48 = some 0 := digitValue_digitChar (d := 0) (by omega)
      rw [← Option.some.inj h, digitValue_digitChar hlt] at hzero
      exact Option.some.inj hzero
    · have hle := Nat.le_of_not_lt hlt
      have hnil := List.length_pos_iff.1 (length_numeral_pos base (num / base.val))
      rw [numeral_of_le hle, List.head?_append_of_ne_nil _ hnil] at h
      have hdiv := ih _ (Nat.div_lt_self (by omega) hval) h
      exact absurd ((Nat.div_eq_zero_iff_lt (by omega)).1 hdiv) hlt

/-- Both functions leave the same string: it has no 0 in front, its value is the number, and `atoi`
reads it back. -/
theorem converters_agree {n p : ℕ} (num : UInt64) (base : Base) (dest tr : Buffer UInt8 FMT_LEN)
    (buf : Buffer UInt8 n) (hp : 0 < p) (hroom : num.toNat < base.val ^ p) (hn : p < n) :
    ∃ s dest' ret buf', ∃ q : ℕ,
      itoap num dest base tr = .ok (dest', ret) ∧ strCpy dest'.cells = .ok s ∧
      itoa num p base buf = .ok (buf', q) ∧ strCpy (buf'.cells.drop q) = .ok s ∧
      (s.head? = some 48 → s = [48]) ∧ evalDigits base s = num.toNat ∧
      (base = .dec → num.toNat < 2 ^ 31 →
        atoi dest'.cells = .ok num.toNat ∧ atoi (buf'.cells.drop q) = .ok num.toNat) := by
  have hnul := zero_notMem_numeral base num.toNat
  obtain ⟨dest', ret, hitoap, hdest⟩ := itoap_ok num dest base tr
  obtain ⟨buf', hitoa, hbuf⟩ :=
    itoa_has num base buf ((length_numeral_le_iff base num.toNat hp).2 hroom) hn
  refine ⟨numeral base num.toNat, dest', ret, buf', _, hitoap, strCpy_cells hdest hnul, hitoa,
    strCpy_has hbuf hnul, ?_, evalDigits_numeral base num.toNat, ?_⟩
  · intro hhead
    rw [eq_zero_of_head base hhead, numeral_zero]
  · rintro rfl hlt
    obtain ⟨t, ht⟩ := exists_cells hdest
    obtain ⟨u, hu⟩ := exists_drop hbuf
    rw [ht, hu]
    exact ⟨atoi_numeral hlt t, atoi_numeral hlt u⟩

theorem converters_agree_fe : ∃ s dest' ret buf', ∃ q : ℕ,
    itoap 254 (.replicate FMT_LEN 0) .hex (.replicate FMT_LEN 0) = .ok (dest', ret) ∧
    strCpy dest'.cells = .ok s ∧ itoa 254 2 .hex (.replicate 3 0) = .ok (buf', q) ∧
    strCpy (buf'.cells.drop q) = .ok s ∧ evalDigits .hex s = some 254 := by
  obtain ⟨s, dest', ret, buf', q, hitoap, hs, hitoa, hs', -, hval, -⟩ :=
    converters_agree (p := 2) (n := 3) 254 .hex (.replicate FMT_LEN 0) (.replicate FMT_LEN 0)
      (.replicate 3 0) (by decide) (by decide) (by decide)
  exact ⟨s, dest', ret, buf', q, hitoap, hs, hitoa, hs', hval⟩

end Bgox
