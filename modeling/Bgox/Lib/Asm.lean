import Mathlib.Algebra.Ring.Nat
import Mathlib.Data.List.Basic
import Mathlib.Logic.Function.Basic
import Mathlib.Tactic.Common

/-!
# Code and a stack in memory

Instructions that stand one after the other: `Code.At` says where a list of them has been put, and
`Code.find` finds the one at an offset.

A stack of words of 8 bytes that grows downwards: what has been pushed stands in memory in the
other order (`pushes_at`), memory above the stack pointer is as it was (`pushes_frame`), and
registers that are popped from where their values stand have these values (`pops_eq`).
-/

namespace Code

variable {I : Type*} {size : I → ℕ} {fetch : ℕ → Option I}

/-- The number of bytes. -/
def length (size : I → ℕ) (is : List I) : ℕ := (is.map size).sum

@[simp] theorem length_nil : length size [] = 0 := rfl

@[simp] theorem length_cons (i : I) (is : List I) :
    length size (i :: is) = size i + length size is := by
  simp [length]

theorem length_append (xs ys : List I) :
    length size (xs ++ ys) = length size xs + length size ys := by
  simp [length]

/-- The instructions stand from `a` on. -/
def At (size : I → ℕ) (fetch : ℕ → Option I) : ℕ → List I → Prop
  | _, [] => True
  | a, i :: is => fetch a = some i ∧ At size fetch (a + size i) is

theorem at_append {a : ℕ} {xs ys : List I} : At size fetch a (xs ++ ys) ↔
    At size fetch a xs ∧ At size fetch (a + length size xs) ys := by
  induction xs generalizing a with
  | nil => simp [At]
  | cons x xs ih => simp only [List.cons_append, At, ih, length_cons, and_assoc, Nat.add_assoc]

/-- The instruction at an offset. -/
def find (size : I → ℕ) : List I → ℕ → Option I
  | [], _ => none
  | i :: is, off => if off = 0 then some i else find size is (off - size i)

theorem find_append (hsize : ∀ i, 0 < size i) (ys : List I) (off : ℕ) :
    ∀ xs : List I, find size (xs ++ ys) (length size xs + off) = find size ys off
  | [] => by simp
  | x :: xs => by
    have hx := hsize x
    rw [List.cons_append, find, length_cons, if_neg (by omega),
      show size x + length size xs + off - size x = length size xs + off by omega]
    exact find_append hsize ys off xs

/-- Code is where it is found. -/
theorem at_find (hsize : ∀ i, 0 < size i) {a : ℕ} {ys : List I} : ∀ xs : List I,
    (∀ off < length size ys, fetch (a + (length size xs + off))
      = find size (xs ++ ys) (length size xs + off)) →
    At size fetch (a + length size xs) ys := by
  induction ys with
  | nil => exact fun _ _ => trivial
  | cons y ys ih =>
    intro xs h
    have hy := hsize y
    refine ⟨?_, ?_⟩
    · have hfirst := h 0 (by rw [length_cons]; omega)
      rw [find_append hsize, Nat.add_zero] at hfirst
      rw [hfirst]
      simp [find]
    · have hlen : length size (xs ++ [y]) = length size xs + size y := by
        simp [length_append]
      have hrest := ih (xs ++ [y]) fun off hoff => by
        rw [hlen, List.append_assoc, Nat.add_assoc]
        exact h (size y + off) (by rw [length_cons]; omega)
      rwa [hlen, ← Nat.add_assoc] at hrest

end Code

namespace Stack

variable {R W : Type*} {mem mem' : ℕ → W} {sp a : ℕ} {ws : List W}

/-- The words stand from `a` on. -/
def At (mem : ℕ → W) (a : ℕ) (ws : List W) : Prop :=
  ∀ i (h : i < ws.length), mem (a + 8 * i) = ws[i]

theorem at_cons {w : W} : At mem a (w :: ws) ↔ mem a = w ∧ At mem (a + 8) ws := by
  constructor
  · intro h
    refine ⟨h 0 (by simp), fun i hi => ?_⟩
    have hnext := h (i + 1) (by simpa using hi)
    rwa [List.getElem_cons_succ, Nat.mul_succ, Nat.add_comm (8 * i), ← Nat.add_assoc] at hnext
  · rintro ⟨h0, h⟩ i hi
    rcases i with _ | i
    · exact h0
    · rw [List.getElem_cons_succ, Nat.mul_succ, Nat.add_comm (8 * i), ← Nat.add_assoc]
      exact h i (by simpa using hi)

theorem at_append {vs : List W} : At mem a (vs ++ ws) ↔
    At mem a vs ∧ At mem (a + 8 * vs.length) ws := by
  induction vs generalizing a with
  | nil => simp [At]
  | cons v vs ih =>
    rw [List.cons_append, at_cons, at_cons, ih, and_assoc, List.length_cons, Nat.mul_succ,
      Nat.add_comm (8 * _), Nat.add_assoc]

theorem At.congr (h : At mem a ws)
    (hmem : ∀ b, a ≤ b → b < a + 8 * ws.length → mem' b = mem b) : At mem' a ws := fun i hi => by
  rw [hmem _ (by omega) (by omega)]
  exact h i hi

theorem At.idxOf [DecidableEq R] {f : R → W} {rs : List R} (h : At mem a (rs.map f)) {r : R}
    (hr : r ∈ rs) : mem (a + 8 * rs.idxOf r) = f r := by
  have hlt := List.idxOf_lt_length_of_mem hr
  rw [h _ (by rwa [List.length_map]), List.getElem_map, List.getElem_idxOf hlt]

/-- Memory when the words have been pushed, one after the other. -/
def pushes : List W → (ℕ → W) → ℕ → ℕ → W
  | [], mem, _ => mem
  | w :: ws, mem, sp => pushes ws (Function.update mem (sp - 8) w) (sp - 8)

theorem pushes_frame : ∀ (ws : List W) {mem : ℕ → W} {sp : ℕ}, 8 * ws.length ≤ sp →
    a < sp - 8 * ws.length ∨ sp ≤ a → pushes ws mem sp a = mem a
  | [], _, _, _, _ => rfl
  | w :: ws, mem, sp, hroom, ha => by
    rw [List.length_cons] at hroom ha
    rw [pushes, pushes_frame ws (by omega) (by omega)]
    exact Function.update_of_ne (by omega) _ _

theorem pushes_at : ∀ (ws : List W) (mem : ℕ → W) {sp : ℕ}, 8 * ws.length ≤ sp →
    At (pushes ws mem sp) (sp - 8 * ws.length) ws.reverse
  | [], _, _, _ => fun _ h => absurd h (by simp)
  | w :: ws, mem, sp, hroom => by
    rw [List.length_cons] at hroom
    have hbase : sp - 8 * (w :: ws).length = sp - 8 - 8 * ws.length := by
      rw [List.length_cons]
      omega
    rw [List.reverse_cons, at_append, hbase]
    refine ⟨pushes_at ws _ (by omega), at_cons.2 ⟨?_, fun _ h => absurd h (by simp)⟩⟩
    rw [List.length_reverse, show sp - 8 - 8 * ws.length + 8 * ws.length = sp - 8 by omega, pushes,
      pushes_frame ws (by omega) (Or.inr (Nat.le_refl _))]
    exact Function.update_self ..

theorem pushes_append : ∀ (ws vs : List W) {mem : ℕ → W} {sp : ℕ},
    pushes (ws ++ vs) mem sp = pushes vs (pushes ws mem sp) (sp - 8 * ws.length)
  | [], _, _, _ => rfl
  | w :: ws, vs, mem, sp => by
    rw [List.cons_append, pushes, pushes_append ws vs, Nat.sub_sub, List.length_cons, Nat.mul_succ,
      Nat.add_comm 8, pushes]

/-- The registers when some of them have been popped, from `sp` on. -/
def pops [DecidableEq R] (mem : ℕ → W) : List R → ℕ → (R → W) → R → W
  | [], _, reg => reg
  | r :: rs, sp, reg => pops mem rs (sp + 8) (Function.update reg r (mem sp))

theorem pops_eq [DecidableEq R] {f : R → W} (r : R) : ∀ {rs : List R} {sp : ℕ} {reg : R → W},
    At mem sp (rs.map f) → pops mem rs sp reg r = if r ∈ rs then f r else reg r
  | [], _, _, _ => by simp [pops]
  | s :: rs, sp, reg, h => by
    obtain ⟨hs, h⟩ := at_cons.1 h
    rw [pops, pops_eq r h]
    by_cases hr : r ∈ rs
    · simp [hr]
    · by_cases hrs : r = s
      · simp [hrs, hs]
      · simp [hr, hrs]

end Stack
