import Mathlib.Logic.Function.Basic
import Mathlib.Tactic.Common

/-!
# Maps with an interval replaced

A map on the numbers, with other values on `a, …, a + n - 1`.  Intervals that follow one another are
one interval (`put_put`), and one that covers another hides it (`put_of_subset`).
-/

namespace Interval

variable {β : Type*} {a b n k x : ℕ} {f g m : ℕ → β}

/-- The values `f 0, …, f (n - 1)` from `a` on. -/
def put (a n : ℕ) (f m : ℕ → β) : ℕ → β := fun x => if a ≤ x ∧ x < a + n then f (x - a) else m x

theorem put_of_mem (h : a ≤ x) (h' : x < a + n) : put a n f m x = f (x - a) := if_pos ⟨h, h'⟩

theorem put_of_notMem (h : x < a ∨ a + n ≤ x) : put a n f m x = m x := if_neg (by omega)

theorem put_congr (h : ∀ i < n, f i = g i) : put a n f m = put a n g m := by
  funext x
  by_cases hx : a ≤ x ∧ x < a + n
  · rw [put_of_mem hx.1 hx.2, put_of_mem hx.1 hx.2, h _ (by omega)]
  · rw [put_of_notMem (by omega), put_of_notMem (by omega)]

@[simp] theorem put_zero : put a 0 f m = m := by
  funext x
  exact put_of_notMem (by omega)

theorem update_eq_put (a : ℕ) (y : β) : Function.update m a y = put a 1 (fun _ => y) m := by
  funext x
  by_cases hx : x = a
  · rw [hx, Function.update_self, put_of_mem (Nat.le_refl a) (Nat.lt_succ_self a)]
  · rw [Function.update_of_ne hx, put_of_notMem (by omega)]

/-- One interval after the other. -/
theorem put_put (h : ∀ i < k, g i = f (n + i)) :
    put (a + n) k g (put a n f m) = put a (n + k) f m := by
  funext x
  by_cases hx : a + n ≤ x ∧ x < a + n + k
  · rw [put_of_mem hx.1 hx.2, put_of_mem (by omega) (by omega), h _ (by omega)]
    congr 1
    omega
  · rw [put_of_notMem (by omega)]
    by_cases hx' : a ≤ x ∧ x < a + n
    · rw [put_of_mem hx'.1 hx'.2, put_of_mem hx'.1 (by omega)]
    · rw [put_of_notMem (by omega), put_of_notMem (by omega)]

theorem put_of_subset (h : a ≤ b) (h' : b + k ≤ a + n) : put a n f (put b k g m) = put a n f m := by
  funext x
  by_cases hx : a ≤ x ∧ x < a + n
  · rw [put_of_mem hx.1 hx.2, put_of_mem hx.1 hx.2]
  · rw [put_of_notMem (by omega), put_of_notMem (by omega), put_of_notMem (by omega)]

end Interval
