import Mathlib.Tactic.Common

/-!
# Programs that keep a log

A program that can fail, with a list of what it has done.  Unlike the result, the list is there when
it fails too: a sequence has done what its first part has done, and what its second part has done if
the first has ended (`mem_bind`).

A program is written once, with its log.  Without it the program is `result`, which goes through
every construct (`result_bind` and the lemmas after it); with what it has done when it has ended it
is `logged`.
-/

/-- What a program has done, and how it has ended. -/
structure Traced (τ ε α : Type) where
  log : List τ
  result : Except ε α

namespace Traced

variable {τ ε α β : Type}

instance : Monad (Traced τ ε) where
  pure a := ⟨[], .ok a⟩
  bind x f :=
    match x.result with
    | .error e => ⟨x.log, .error e⟩
    | .ok a => ⟨x.log ++ (f a).log, (f a).result⟩

/-- A program that does nothing worth noting. -/
def lift (x : Except ε α) : Traced τ ε α := ⟨[], x⟩

def tell (l : List τ) : Traced τ ε Unit := ⟨l, .ok ⟨⟩⟩

/-- The same program, with its log in other words. -/
def mapLog {σ : Type} (g : τ → σ) (x : Traced τ ε α) : Traced σ ε α := ⟨x.log.map g, x.result⟩

/-- The outcome, with what has been done on the way. -/
def logged (x : Traced τ ε α) : Except ε (α × List τ) := x.result.map (·, x.log)

@[simp] theorem log_pure (a : α) : (pure a : Traced τ ε α).log = [] := rfl

@[simp] theorem result_pure (a : α) : (pure a : Traced τ ε α).result = pure a := rfl

@[simp] theorem log_lift (x : Except ε α) : (lift x : Traced τ ε α).log = [] := rfl

@[simp] theorem result_lift (x : Except ε α) : (lift x : Traced τ ε α).result = x := rfl

@[simp] theorem log_tell (l : List τ) : (tell l : Traced τ ε Unit).log = l := rfl

@[simp] theorem result_tell (l : List τ) : (tell l : Traced τ ε Unit).result = .ok ⟨⟩ := rfl

@[simp] theorem log_mapLog {σ : Type} (g : τ → σ) (x : Traced τ ε α) :
    (x.mapLog g).log = x.log.map g := rfl

@[simp] theorem result_mapLog {σ : Type} (g : τ → σ) (x : Traced τ ε α) :
    (x.mapLog g).result = x.result := rfl

theorem logged_eq_ok {x : Traced τ ε α} {a : α} {l : List τ} :
    x.logged = .ok (a, l) ↔ x.result = .ok a ∧ x.log = l := by
  rcases x with ⟨l', e | a'⟩
  · simp [logged, Except.map]
  · simp [logged, Except.map]

theorem result_ite (c : Prop) [Decidable c] (x y : Traced τ ε α) :
    (if c then x else y).result = if c then x.result else y.result :=
  apply_ite result c x y

theorem log_ite (c : Prop) [Decidable c] (x y : Traced τ ε α) :
    (if c then x else y).log = if c then x.log else y.log :=
  apply_ite log c x y

theorem result_bind (x : Traced τ ε α) (f : α → Traced τ ε β) :
    (x >>= f).result = x.result >>= fun a => (f a).result := by
  rcases x with ⟨l, e | a⟩
  · rfl
  · rfl

@[simp] theorem result_lift_bind (x : Except ε α) (f : α → Traced τ ε β) :
    (lift x >>= f).result = x >>= fun a => (f a).result :=
  result_bind _ _

@[simp] theorem result_tell_bind (l : List τ) (x : Traced τ ε β) :
    (tell l >>= fun _ => x).result = x.result :=
  result_bind _ _

/-- What a sequence has done if its first part has ended. -/
theorem log_bind {x : Traced τ ε α} {a : α} (h : x.result = .ok a) (f : α → Traced τ ε β) :
    (x >>= f).log = x.log ++ (f a).log := by
  rcases x with ⟨l, e | a'⟩
  · cases h
  · obtain rfl := Except.ok.inj h
    rfl

theorem log_lift_bind {x : Except ε α} {a : α} (h : x = .ok a) (f : α → Traced τ ε β) :
    (lift x >>= f).log = (f a).log :=
  log_bind h f

@[simp] theorem log_tell_bind (l : List τ) (x : Traced τ ε β) :
    (tell l >>= fun _ => x).log = l ++ x.log :=
  log_bind rfl _

theorem mem_bind {x : Traced τ ε α} {f : α → Traced τ ε β} {e : τ} :
    e ∈ (x >>= f).log ↔ e ∈ x.log ∨ ∃ a, x.result = .ok a ∧ e ∈ (f a).log := by
  rcases x with ⟨l, e' | a⟩
  · simp [bind]
  · simp [bind]

theorem mem_lift_bind {x : Except ε α} {f : α → Traced τ ε β} {e : τ} :
    e ∈ (lift x >>= f).log ↔ ∃ a, x = .ok a ∧ e ∈ (f a).log := by
  simp [mem_bind]

theorem mem_tell_bind {l : List τ} {x : Traced τ ε β} {e : τ} :
    e ∈ (tell l >>= fun _ => x).log ↔ e ∈ l ∨ e ∈ x.log :=
  List.mem_append

end Traced
