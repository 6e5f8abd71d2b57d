import Bgox.Lib.Run
import Bgox.Printf
import Bgox.Proofs.Strings

/-!
# Strings in arrays

What the string functions do with arrays: there is room for the string and the 0 after it, and then
it is in the array, or there is not, and a byte is stored outside.
-/

namespace Bgox

variable {n k : ℕ} {s t : List UInt8} {b : Buffer UInt8 n}

/-! ## Reading -/

/-- The string at `k`, and what is behind its 0. -/
theorem exists_drop (h : b.Has k (s ++ [0])) : ∃ t, b.cells.drop k = s ++ 0 :: t := by
  obtain ⟨t, ht⟩ := h.drop
  exact ⟨t, by rw [ht, List.append_assoc]; rfl⟩

theorem exists_cells (h : b.Has 0 (s ++ [0])) : ∃ t, b.cells = s ++ 0 :: t := exists_drop h

theorem strCpy_has (h : b.Has k (s ++ [0])) (hs : 0 ∉ s) : strCpy (b.cells.drop k) = .ok s := by
  obtain ⟨t, ht⟩ := exists_drop h
  rw [ht, strCpy_append hs t]

theorem strLen_has (h : b.Has k (s ++ [0])) (hs : 0 ∉ s) :
    strLen (b.cells.drop k) = .ok s.length := by
  obtain ⟨t, ht⟩ := exists_drop h
  rw [ht, strLen_append hs t]

theorem strCpy_cells (h : b.Has 0 (s ++ [0])) (hs : 0 ∉ s) : strCpy b.cells = .ok s :=
  strCpy_has h hs

theorem strLen_cells (h : b.Has 0 (s ++ [0])) (hs : 0 ∉ s) : strLen b.cells = .ok s.length :=
  strLen_has h hs

/-! ## Writing -/

theorem strCpyInto_ok (dest : Buffer UInt8 n) {src : List UInt8} (hsrc : strCpy src = .ok s)
    (h : s.length < n) :
    ∃ dest', strCpyInto dest src = .ok dest' ∧ dest'.Has 0 (s ++ [0]) := by
  obtain ⟨dest', hwrite, hw⟩ := Buffer.write_ok Trap.wild dest (k := 0) (w := s ++ [0])
    (by simp; omega)
  refine ⟨dest', ?_, hw.has⟩
  rw [strCpyInto, hsrc]
  exact hwrite

theorem strCpyInto_error (dest : Buffer UInt8 n) {src : List UInt8} (hsrc : strCpy src = .ok s)
    (h : n ≤ s.length) : strCpyInto dest src = .error .wild := by
  rw [strCpyInto, hsrc]
  exact Buffer.write_error _ _ (by simp) (by simp; omega)

theorem strConcat_ok (dest : Buffer UInt8 n) {prev current : List UInt8}
    (hp : strCpy prev = .ok s) (hc : strCpy current = .ok t) (h : s.length + t.length < n) :
    ∃ dest', strConcat prev current dest = .ok dest' ∧ dest'.Has 0 (s ++ t ++ [0]) := by
  obtain ⟨dest₁, hwrite₁, hw₁⟩ := Buffer.write_ok Trap.wild dest (k := 0) (w := s ++ [0])
    (by simp; omega)
  obtain ⟨dest', hwrite, hw⟩ := Buffer.write_ok Trap.wild dest₁ (k := s.length) (w := t ++ [0])
    (by simp; omega)
  refine ⟨dest', ?_, ?_⟩
  · simp only [strConcat, hp, hc, bind, Except.bind, hwrite₁]
    exact hwrite
  · rw [List.append_assoc, Buffer.has_append]
    refine ⟨hw.keeps (Buffer.has_append.1 hw₁.has).1 (by omega), ?_⟩
    rw [Nat.zero_add]
    exact hw.has

theorem strConcat_error (dest : Buffer UInt8 n) {prev current : List UInt8}
    (hp : strCpy prev = .ok s) (hc : strCpy current = .ok t) (h : n ≤ s.length + t.length) :
    strConcat prev current dest = .error .wild := by
  by_cases hs : s.length < n
  · obtain ⟨dest₁, hwrite₁, -⟩ := Buffer.write_ok Trap.wild dest (k := 0) (w := s ++ [0])
      (by simp; omega)
    simp only [strConcat, hp, hc, bind, Except.bind, hwrite₁]
    exact Buffer.write_error _ _ (by simp) (by simp; omega)
  · simp only [strConcat, hp, bind, Except.bind]
    rw [Buffer.write_error Trap.wild dest (by simp) (by simp; omega)]

section Part

variable {i j : ℤ} {u v w : List UInt8}

/-- The part `v` of a string, by the places of its first byte and its last one. -/
theorem slice_eq (hi : i = u.length) (hj : j + 1 = i + v.length) :
    slice (u ++ (v ++ w)) i j = .ok v := by
  rw [slice]
  split_ifs with h1 h2
  · obtain rfl := List.eq_nil_of_length_eq_zero (show v.length = 0 by omega)
    rfl
  · rw [show i.toNat = u.length by omega, show (j - i + 1).toNat = v.length by omega,
      List.drop_left, List.take_left]
  · simp only [List.length_append] at h2
    omega

theorem strSubstr_eq (dest : Buffer UInt8 n) (hi : i = u.length) (hj : j + 1 = i + v.length) :
    strSubstr (u ++ (v ++ w)) i j dest k = dest.write .wild k (v ++ [0]) := by
  rw [strSubstr, slice_eq hi hj]
  rfl

theorem strSubstr_ok (dest : Buffer UInt8 n) (hi : i = u.length) (hj : j + 1 = i + v.length)
    (hk : k + v.length < n) :
    ∃ dest', strSubstr (u ++ (v ++ w)) i j dest k = .ok dest' ∧ dest'.Has k (v ++ [0]) := by
  obtain ⟨dest', hwrite, hw⟩ := Buffer.write_ok Trap.wild dest (k := k) (w := v ++ [0])
    (by simp; omega)
  exact ⟨dest', (strSubstr_eq dest hi hj).trans hwrite, hw.has⟩

theorem strSubstr_error (dest : Buffer UInt8 n) (hi : i = u.length) (hj : j + 1 = i + v.length)
    (hk : n ≤ k + v.length) : strSubstr (u ++ (v ++ w)) i j dest k = .error .wild := by
  rw [strSubstr_eq dest hi hj]
  exact Buffer.write_error _ _ (by simp) (by simp; omega)

end Part

end Bgox
