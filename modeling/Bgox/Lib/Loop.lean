import Mathlib.Data.Nat.Notation
import Mathlib.Tactic.Common

/-!
# Loops that may not end

A turn of a loop goes on with a new state or leaves it with a result, and may not end itself.  A
loop is run for a number of turns, and a result that it has come to does not change with more of
them (`run_of_le`).  What holds of the result follows from an invariant (`run_invariant`); there
is one if a measure goes down (`exists_run`).
-/

namespace Loop

variable {σ α β : Type*}

/-- Up to `n` turns of a loop. -/
def run (turn : σ → Option (σ ⊕ α)) : ℕ → σ → Option α
  | 0, _ => none
  | n + 1, s =>
    match turn s with
    | none => none
    | some (.inl s') => run turn n s'
    | some (.inr a) => some a

variable {turn : σ → Option (σ ⊕ α)} {n : ℕ} {s s' : σ} {a : α}

theorem run_next (h : turn s = some (.inl s')) : run turn (n + 1) s = run turn n s' := by
  simp only [run, h]

theorem run_leave (h : turn s = some (.inr a)) : run turn (n + 1) s = some a := by
  simp only [run, h]

/-- What a turn can have done if the loop has come to an end. -/
theorem turn_of_run (h : run turn (n + 1) s = some a) :
    (∃ s', turn s = some (.inl s') ∧ run turn n s' = some a) ∨ turn s = some (.inr a) := by
  rcases hturn : turn s with _ | s' | a'
  · simp [run, hturn] at h
  · exact .inl ⟨s', rfl, run_next hturn ▸ h⟩
  · rw [run_leave hturn] at h
    exact .inr (by rw [Option.some.inj h])

theorem run_invariant {P : σ → Prop} {Q : α → Prop}
    (hnext : ∀ s s', P s → turn s = some (.inl s') → P s')
    (hleave : ∀ s a, P s → turn s = some (.inr a) → Q a) :
    ∀ {n : ℕ} {s : σ}, P s → run turn n s = some a → Q a
  | 0, _, _, h => by cases h
  | n + 1, s, hs, h => by
    rcases turn_of_run h with ⟨s', hturn, hrun⟩ | hturn
    · exact run_invariant hnext hleave (hnext s s' hs hturn) hrun
    · exact hleave s a hs hturn

theorem exists_run {P : σ → Prop} {Q : α → Prop} (μ : σ → ℕ)
    (hturn : ∀ s, P s → (∃ s', turn s = some (.inl s') ∧ P s' ∧ μ s' < μ s) ∨
      ∃ a, turn s = some (.inr a) ∧ Q a) (hs : P s) :
    ∃ n a, run turn n s = some a ∧ Q a := by
  induction hμ : μ s using Nat.strongRecOn generalizing s with
  | _ k ih =>
    rcases hturn s hs with ⟨s', hs', hP, hlt⟩ | ⟨a, ha, hQ⟩
    · obtain ⟨n, a, hrun, hQ⟩ := ih (μ s') (hμ ▸ hlt) hP rfl
      exact ⟨n + 1, a, (run_next hs').trans hrun, hQ⟩
    · exact ⟨1, a, run_leave ha, hQ⟩

/-! ## More turns -/

/-- A result that does not change with more turns. -/
def Settles (f : ℕ → Option α) : Prop :=
  ∀ ⦃n k : ℕ⦄ ⦃a : α⦄, n ≤ k → f n = some a → f k = some a

theorem settles_const (x : Option α) : Settles fun _ => x := fun _ _ _ _ h => h

theorem Settles.bind {f : ℕ → Option α} {g : ℕ → α → Option β} (hf : Settles f)
    (hg : ∀ a, Settles fun n => g n a) : Settles fun n => (f n).bind (g n) := by
  intro n k b hnk h
  obtain ⟨a, ha, hb⟩ := Option.bind_eq_some_iff.1 h
  exact Option.bind_eq_some_iff.2 ⟨a, hf hnk ha, hg a hnk hb⟩

/-- The turns may be given the number of turns too. -/
theorem run_of_le {turn : ℕ → σ → Option (σ ⊕ α)} (h : ∀ s, Settles fun n => turn n s) {n k : ℕ}
    (hnk : n ≤ k) : ∀ {l l' : ℕ} {s : σ}, l ≤ l' → run (turn n) l s = some a →
      run (turn k) l' s = some a
  | 0, _, _, _, hrun => by cases hrun
  | l + 1, 0, _, hl, _ => absurd hl (Nat.not_succ_le_zero l)
  | l + 1, l' + 1, s, hl, hrun => by
    rcases turn_of_run hrun with ⟨s', hturn, hrun⟩ | hturn
    · rw [run_next (h s hnk hturn)]
      exact run_of_le h hnk (Nat.le_of_succ_le_succ hl) hrun
    · exact run_leave (h s hnk hturn)

theorem settles_run (turn : σ → Option (σ ⊕ α)) (s : σ) : Settles fun n => run turn n s :=
  fun _ _ _ hnk => run_of_le (fun s => settles_const (turn s)) hnk hnk

end Loop
