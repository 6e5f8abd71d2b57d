import Mathlib.Algebra.Group.Nat.Defs
import Mathlib.Logic.Function.Basic
import Mathlib.Tactic.Common

/-!
# Tables of packed entries

Bit-fields that are packed into a number, from the lowest bit on (`Bits.pack`), and what is read
from it at an offset (`Bits.field`); and arrays that a loop of stores fills.
-/

namespace Bits

variable {off w w' v x : ℕ} {fs : List (ℕ × ℕ)}

/-- The `w` bits from `off` on. -/
def field (off w x : ℕ) : ℕ := x / 2 ^ off % 2 ^ w

/-- Widths and values of fields, one after the other.  What is too large for its field is cut. -/
def pack : List (ℕ × ℕ) → ℕ
  | [] => 0
  | (w, v) :: fs => v % 2 ^ w + 2 ^ w * pack fs

theorem field_pack_self (w v : ℕ) (fs : List (ℕ × ℕ)) :
    field 0 w (pack ((w, v) :: fs)) = v % 2 ^ w := by
  simp [field, pack, Nat.add_mul_mod_self_left]

theorem field_pack_cons (h : w ≤ off) :
    field off w' (pack ((w, v) :: fs)) = field (off - w) w' (pack fs) := by
  obtain ⟨d, rfl⟩ := Nat.exists_eq_add_of_le h
  have hpos := Nat.two_pow_pos w
  rw [field, field, pack, Nat.pow_add, ← Nat.div_div_eq_div_mul, Nat.add_mul_div_left _ _ hpos,
    Nat.div_eq_of_lt (Nat.mod_lt _ hpos), Nat.zero_add, Nat.add_sub_cancel_left]

/-- Two fields that stand side by side are one. -/
theorem field_add (off w w' x : ℕ) :
    field off w x + 2 ^ w * field (off + w) w' x = field off (w + w') x := by
  rw [field, field, field, Nat.pow_add 2 off, ← Nat.div_div_eq_div_mul, Nat.pow_add 2 w,
    Nat.mod_mul]

end Bits

section Update

variable {ι κ β : Type*} [DecidableEq κ] {f : ι → β} {g : ι → κ}

theorem foldl_update_of_notMem {x : κ} : ∀ {l : List ι} {k : κ → β}, (∀ i ∈ l, g i ≠ x) →
    l.foldl (fun k i => Function.update k (g i) (f i)) k x = k x
  | [], _, _ => rfl
  | i :: l, k, h => by
    rw [List.foldl_cons, foldl_update_of_notMem fun j hj => h j (List.mem_cons_of_mem i hj)]
    exact Function.update_of_ne (h i List.mem_cons_self).symm _ _

theorem foldl_update_of_mem {i : ι} : ∀ {l : List ι} {k : κ → β}, i ∈ l →
    (∀ j ∈ l, g j = g i → j = i) →
    l.foldl (fun k i => Function.update k (g i) (f i)) k (g i) = f i
  | [], _, h, _ => absurd h (by simp)
  | j :: l, k, h, hinj => by
    rw [List.foldl_cons]
    by_cases hi : i ∈ l
    · exact foldl_update_of_mem hi fun j' hj' => hinj j' (List.mem_cons_of_mem j hj')
    · obtain rfl : i = j := (List.mem_cons.1 h).resolve_right hi
      rw [foldl_update_of_notMem fun j' hj' heq =>
        hi (hinj j' (List.mem_cons_of_mem i hj') heq ▸ hj')]
      exact Function.update_self ..

end Update
