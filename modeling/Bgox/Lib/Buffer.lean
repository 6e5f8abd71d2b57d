import Mathlib.Algebra.Group.Int.Defs
import Mathlib.Data.List.Basic
import Mathlib.Tactic.Common

/-!
# Arrays of a fixed size

An array has as many elements as its type says, so that a store at an index outside of it has no
result but the error `e`.  `Has b k w` says that the elements from `k` on begin with those of `w`.
A list that is written from `k` on is there afterwards, and nothing else has changed (`Written`);
there is room for it, or the array is left (`write_ok`, `write_error`).
-/

structure Buffer (α : Type*) (n : ℕ) where
  cells : List α
  length_cells : cells.length = n

namespace Buffer

variable {α ε : Type*} {n : ℕ}

def replicate (n : ℕ) (c : α) : Buffer α n := ⟨List.replicate n c, List.length_replicate⟩

/-- `b[i] = c`. -/
def store (e : ε) (b : Buffer α n) (i : ℤ) (c : α) : Except ε (Buffer α n) :=
  if 0 ≤ i ∧ i < n then .ok ⟨b.cells.set i.toNat c, by rw [List.length_set, b.length_cells]⟩
  else .error e

/-- One element after the other, from `k` on. -/
def write (e : ε) : Buffer α n → ℕ → List α → Except ε (Buffer α n)
  | b, _, [] => .ok b
  | b, k, c :: w => b.store e k c >>= fun b => write e b (k + 1) w

/-- The elements of `w` are found from `k` on. -/
def Has (b : Buffer α n) (k : ℕ) (w : List α) : Prop :=
  ∀ i (h : i < w.length), b.cells[k + i]? = some w[i]

variable {b b' : Buffer α n} {k j : ℕ} {v w : List α} {e : ε}

@[simp] theorem has_nil (b : Buffer α n) (k : ℕ) : b.Has k [] := fun _ h => absurd h (by simp)

theorem has_cons {c : α} : b.Has k (c :: w) ↔ b.cells[k]? = some c ∧ b.Has (k + 1) w := by
  constructor
  · intro h
    refine ⟨h 0 (by simp), fun i hi => ?_⟩
    have hnext := h (i + 1) (by simpa using hi)
    rwa [List.getElem_cons_succ, ← Nat.add_assoc, Nat.add_right_comm] at hnext
  · rintro ⟨h0, h⟩ i hi
    rcases i with _ | i
    · exact h0
    · have hnext := h i (by simpa using hi)
      rwa [Nat.add_right_comm, Nat.add_assoc] at hnext

theorem has_append : b.Has k (v ++ w) ↔ b.Has k v ∧ b.Has (k + v.length) w := by
  induction v generalizing k with
  | nil => simp
  | cons c v ih =>
    rw [List.cons_append, has_cons, has_cons, ih, and_assoc, List.length_cons, Nat.add_assoc,
      Nat.add_comm 1]

/-- What can be read from `k` on. -/
theorem Has.drop (h : b.Has k w) : ∃ t, b.cells.drop k = w ++ t := by
  induction w generalizing k with
  | nil => exact ⟨_, rfl⟩
  | cons c w ih =>
    obtain ⟨h0, h⟩ := has_cons.1 h
    obtain ⟨t, ht⟩ := ih h
    obtain ⟨hk, hc⟩ := List.getElem?_eq_some_iff.1 h0
    exact ⟨t, by rw [List.drop_eq_getElem_cons hk, hc, ht, List.cons_append]⟩

theorem Has.take (h : b.Has k w) (m : ℕ) : b.Has k (w.take m) := fun i hi => by
  rw [List.length_take] at hi
  rw [h i (by omega), List.getElem_take]

/-! ## Stores -/

theorem store_eq {i : ℕ} (h : i < n) (c : α) :
    ∃ b', b.store e i c = .ok b' ∧ b'.cells = b.cells.set i c := by
  refine ⟨_, if_pos ⟨by omega, by omega⟩, ?_⟩
  simp

theorem store_error {i : ℤ} (h : ¬ (0 ≤ i ∧ i < n)) (c : α) : b.store e i c = .error e := if_neg h

/-- The elements `w` have been written from `k` on. -/
structure Written (b b' : Buffer α n) (k : ℕ) (w : List α) : Prop where
  has : b'.Has k w
  frame : ∀ i, i < k ∨ k + w.length ≤ i → b'.cells[i]? = b.cells[i]?

/-- What stands elsewhere stays. -/
theorem Written.keeps (hw : Written b b' k w) (hv : b.Has j v)
    (hjk : j + v.length ≤ k ∨ k + w.length ≤ j) : b'.Has j v := fun i hi => by
  rw [hw.frame _ (by omega)]
  exact hv i hi

/-- One more element in front of what has been written. -/
theorem Written.cons {b₁ : Buffer α n} {c : α} (hk : k < n) (hcells : b₁.cells = b.cells.set k c)
    (hw : Written b₁ b' (k + 1) w) : Written b b' k (c :: w) := by
  refine ⟨has_cons.2 ⟨?_, hw.has⟩, fun i hi => ?_⟩
  · rw [hw.frame k (Or.inl (Nat.lt_succ_self k)), hcells, List.getElem?_set_self]
    rw [b.length_cells]
    omega
  · rw [List.length_cons] at hi
    rw [hw.frame i (by omega), hcells, List.getElem?_set_ne (by omega)]

/-- Or behind it. -/
theorem Written.concat {b₁ : Buffer α n} {c : α} (hk : k + w.length < n)
    (hcells : b₁.cells = b.cells.set (k + w.length) c) (hw : Written b₁ b' k w) :
    Written b b' k (w ++ [c]) := by
  refine ⟨has_append.2 ⟨hw.has, has_cons.2 ⟨?_, has_nil _ _⟩⟩, fun i hi => ?_⟩
  · rw [hw.frame _ (Or.inr (Nat.le_refl _)), hcells, List.getElem?_set_self]
    rw [b.length_cells]
    omega
  · rw [List.length_append, List.length_singleton] at hi
    rw [hw.frame i (by omega), hcells, List.getElem?_set_ne (by omega)]

theorem Written.refl (b : Buffer α n) (k : ℕ) : Written b b k [] := ⟨has_nil b k, fun _ _ => rfl⟩

theorem store_ok (e : ε) (b : Buffer α n) (hk : k < n) (c : α) :
    ∃ b', b.store e k c = .ok b' ∧ Written b b' k [c] := by
  obtain ⟨b', hstore, hcells⟩ := store_eq (b := b) (e := e) hk c
  exact ⟨b', hstore, (Written.refl b' (k + 1)).cons hk hcells⟩

/-- A store in front of what is there. -/
theorem store_has (e : ε) (hk : k < n) (c : α) (h : b.Has (k + 1) w) :
    ∃ b', b.store e k c = .ok b' ∧ b'.Has k (c :: w) := by
  obtain ⟨b', hstore, hw⟩ := store_ok e b hk c
  exact ⟨b', hstore, has_cons.2 ⟨(has_cons.1 hw.has).1, hw.keeps h (Or.inr (by simp))⟩⟩

/-- And one behind it. -/
theorem store_append (e : ε) (h : b.Has k w) (hk : k + w.length < n) (c : α) :
    ∃ b', b.store e (k + w.length : ℕ) c = .ok b' ∧ b'.Has k (w ++ [c]) := by
  obtain ⟨b', hstore, hw⟩ := store_ok e b hk c
  exact ⟨b', hstore, has_append.2 ⟨hw.keeps h (Or.inl (Nat.le_refl _)), hw.has⟩⟩

theorem write_ok (e : ε) (b : Buffer α n) (h : k + w.length ≤ n) :
    ∃ b', b.write e k w = .ok b' ∧ Written b b' k w := by
  induction w generalizing b k with
  | nil => exact ⟨b, rfl, .refl b k⟩
  | cons c w ih =>
    rw [List.length_cons] at h
    obtain ⟨b₁, hstore, hcells⟩ := store_eq (b := b) (e := e) (show k < n by omega) c
    obtain ⟨b', hwrite, hw⟩ := ih b₁ (k := k + 1) (by omega)
    refine ⟨b', ?_, hw.cons (by omega) hcells⟩
    rw [write, hstore]
    exact hwrite

theorem write_error (e : ε) (b : Buffer α n) (hw : w ≠ []) (h : n < k + w.length) :
    b.write e k w = .error e := by
  induction w generalizing b k with
  | nil => exact absurd rfl hw
  | cons c w ih =>
    rw [List.length_cons] at h
    rw [write]
    by_cases hk : k < n
    · obtain ⟨b₁, hstore, -⟩ := store_eq (b := b) (e := e) hk c
      rw [hstore]
      refine ih b₁ ?_ (by omega)
      rintro rfl
      simp at h
      omega
    · rw [store_error (by omega)]
      rfl

theorem written_of_write (h : b.write e k w = .ok b') : Written b b' k w := by
  rcases Nat.lt_or_ge n (k + w.length) with hlt | hle
  · rcases w with _ | ⟨c, w⟩
    · obtain rfl := Except.ok.inj h
      exact .refl b k
    · rw [write_error e b (by simp) hlt] at h
      cases h
  · obtain ⟨b₁, hwrite, hw⟩ := write_ok e b hle
    obtain rfl := Except.ok.inj (hwrite.symm.trans h)
    exact hw

end Buffer
