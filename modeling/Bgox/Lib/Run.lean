import Mathlib.Logic.Relation
import Mathlib.Tactic.Common

/-!
# Runs of a transition system

`Reach R s₀ s` holds of the states some finite sequence of actions leads to from `s₀`; what holds
at `s₀` and is kept by every action holds of all of them (`Reach.invariant`).

`bind_eq_ok` takes a sequence that has ended apart.  `OnlyError e` is for programs that end or fail
with `e`.  A machine whose steps can fault is compared with a model whose steps can be undefined by
`Sim`: the two fault together, and otherwise end in related states.  Sequencing keeps both
(`OnlyError.bind`, `Sim.bind`).
-/

namespace Run

variable {σ τ α ε : Type*}

/-- The states reached from `s₀` by finitely many actions. -/
inductive Reach (R : σ → α → σ → Prop) (s₀ : σ) : σ → Prop
  | start : Reach R s₀ s₀
  | step {s s' : σ} {a : α} : Reach R s₀ s → R s a s' → Reach R s₀ s'

theorem Reach.invariant {R : σ → α → σ → Prop} {s₀ : σ} {P : σ → Prop} (h0 : P s₀)
    (hstep : ∀ s a s', P s → R s a s' → P s') {s : σ} (h : Reach R s₀ s) : P s := by
  induction h with
  | start => exact h0
  | step _ hR ih => exact hstep _ _ _ ih hR

theorem Reach.trans {R : σ → α → σ → Prop} {s₀ s₁ s₂ : σ} (h : Reach R s₀ s₁)
    (h' : Reach R s₁ s₂) : Reach R s₀ s₂ := by
  induction h' with
  | start => exact h
  | step _ hR ih => exact Reach.step ih hR

/-- A sequence ends if its parts do. -/
theorem bind_eq_ok {α β : Type _} {x : Except ε α} {f : α → Except ε β} {b : β} :
    x >>= f = .ok b ↔ ∃ a, x = .ok a ∧ f a = .ok b := by
  rcases x with e | a
  · simp [bind, Except.bind]
  · simp [bind, Except.bind]

/-- A sequence is what it is from where its first part has ended. -/
theorem bind_congr_ok {α β : Type _} {x : Except ε α} {f g : α → Except ε β}
    (h : ∀ a, x = .ok a → f a = g a) : x >>= f = x >>= g := by
  rcases x with e | a
  · rfl
  · exact h a rfl

/-- A program that has not failed with `e` has ended. -/
def OnlyError {α : Type _} (e : ε) (x : Except ε α) : Prop := ∀ e', x = .error e' → e' = e

theorem OnlyError.ok {α : Type _} (e : ε) (a : α) : OnlyError e (.ok a) := nofun

theorem OnlyError.error {α : Type _} (e : ε) : OnlyError e (.error e : Except ε α) :=
  fun _ h => (Except.error.inj h).symm

theorem OnlyError.bind {α β : Type _} {e : ε} {x : Except ε α} {f : α → Except ε β}
    (h : OnlyError e x) (hf : ∀ a, x = .ok a → OnlyError e (f a)) : OnlyError e (x >>= f) := by
  rcases x with e' | a
  · intro e'' he
    exact h e'' (congrArg _ (Except.error.inj he))
  · exact hf a rfl

theorem OnlyError.exists_ok {α : Type _} {e : ε} {x : Except ε α} (h : OnlyError e x)
    (hne : x ≠ .error e) : ∃ a, x = .ok a := by
  rcases x with e' | a
  · exact absurd (congrArg _ (h e' rfl)) hne
  · exact ⟨a, rfl⟩

/-- Both sides fault, or both end and `R` relates the ends. -/
def Sim (R : σ → τ → Prop) : Except ε σ → Option τ → Prop
  | .ok s, some t => R s t
  | .error _, none => True
  | _, _ => False

variable {R : σ → τ → Prop}

@[simp] theorem sim_ok_some {s : σ} {t : τ} :
    Sim R (Except.ok s : Except ε σ) (some t) ↔ R s t := Iff.rfl

@[simp] theorem sim_error_none {e : ε} : Sim R (Except.error e : Except ε σ) none := trivial

theorem Sim.bind {x : Except ε σ} {y : Option τ} {f : σ → Except ε σ} {g : τ → Option τ}
    (h : Sim R x y) (hfg : ∀ s t, y = some t → R s t → Sim R (f s) (g t)) :
    Sim R (x >>= f) (y >>= g) := by
  rcases x with e | s <;> rcases y with _ | t
  · trivial
  · exact h.elim
  · exact h.elim
  · exact hfg s t rfl h

theorem Sim.of_ok {x : Except ε σ} {y : Option τ} {s : σ} (h : Sim R x y) (hx : x = .ok s) :
    ∃ t, y = some t ∧ R s t := by
  subst hx
  rcases y with _ | t
  · exact h.elim
  · exact ⟨t, rfl, h⟩

theorem Sim.of_some {x : Except ε σ} {y : Option τ} {t : τ} (h : Sim R x y) (hy : y = some t) :
    ∃ s, x = .ok s ∧ R s t := by
  subst hy
  rcases x with e | s
  · exact h.elim
  · exact ⟨s, rfl, h⟩

end Run
