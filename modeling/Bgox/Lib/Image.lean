import Mathlib.Data.List.Basic
import Mathlib.Logic.Function.Basic
import Mathlib.Tactic.Common

/-!
# Memory as a map of bytes

What a program sees of memory: a partial map from addresses to bytes.  Pages come into it zeroed
(`clear`), in place of what was there before, and bytes are stored one after the other (`put`).
-/

namespace Image

/-! ## Pages -/

/-- The pages `ps`, of `size` bytes each, become zero. -/
def clear (size : ℕ) (ps : List ℕ) (m : ℕ → Option ℕ) : ℕ → Option ℕ :=
  fun a => if a / size ∈ ps then some 0 else m a

variable {size a x : ℕ} {ps : List ℕ} {m : ℕ → Option ℕ}

@[simp] theorem clear_nil : clear size [] m = m := by
  funext a
  simp [clear]

theorem clear_cons (p : ℕ) : clear size (p :: ps) m = clear size ps (clear size [p] m) := by
  funext a
  simp only [clear, List.mem_cons, List.not_mem_nil, or_false]
  by_cases hp : a / size = p <;> by_cases hps : a / size ∈ ps <;> simp [hp, hps]

theorem clear_of_mem (h : a / size ∈ ps) : clear size ps m a = some 0 := if_pos h

theorem clear_of_notMem (h : a / size ∉ ps) : clear size ps m a = m a := if_neg h

/-! ## Bytes -/

/-- The bytes `bs` from an address on. -/
def put : List ℕ → ℕ → (ℕ → Option ℕ) → ℕ → Option ℕ
  | [], _, m => m
  | b :: bs, a, m => put bs (a + 1) (Function.update m a (some (b % 256)))

theorem put_of_notMem : ∀ {bs : List ℕ} {a : ℕ} {m : ℕ → Option ℕ}, x < a ∨ a + bs.length ≤ x →
    put bs a m x = m x
  | [], _, _, _ => rfl
  | b :: bs, a, m, hx => by
    rw [List.length_cons] at hx
    rw [put, put_of_notMem (by omega)]
    exact Function.update_of_ne (by omega) _ _

/-- A byte that has been stored. -/
theorem put_of_mem : ∀ {bs : List ℕ} {a : ℕ} {m : ℕ → Option ℕ}, a ≤ x → x < a + bs.length →
    put bs a m x = some (bs.getD (x - a) 0 % 256)
  | [], a, _, hle, hx => by
    rw [List.length_nil] at hx
    omega
  | b :: bs, a, m, hle, hx => by
    rw [List.length_cons] at hx
    rcases Nat.eq_or_lt_of_le hle with rfl | hlt
    · rw [put, put_of_notMem (Or.inl (Nat.lt_succ_self a)), Nat.sub_self, List.getD_cons_zero]
      exact Function.update_self ..
    · rw [put, put_of_mem hlt (by omega), show x - a = x - (a + 1) + 1 by omega,
        List.getD_cons_succ]

end Image
