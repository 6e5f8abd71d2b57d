import Mathlib.Data.List.Nodup
import Mathlib.Data.List.Perm.Subperm
import Mathlib.Logic.Function.Basic
import Mathlib.Tactic.Common

/-!
# Singly linked chains

A heap of cells is a `next : α → Option α`, `none` the null pointer.  `Chain next p l` says that
the pointer `p` starts the null-terminated chain of the cells `l`.  Since `next` is a function a
chain repeats no cell (`Chain.nodup`) and is the only one its pointer starts (`Chain.unique`).

The loops that walk a chain (`find`, `pred`, `last`) count down fuel; following a null pointer and
running out of fuel are told apart.  On a chain shorter than the fuel each of them does what the
corresponding list function does.
-/

namespace Linked

variable {α : Type*}

/-- Why a walk has no result. -/
inductive Fault
  | null
  | diverges
  deriving DecidableEq, Repr

/-- `p` starts the null-terminated chain of the cells `l`. -/
def Chain (next : α → Option α) : Option α → List α → Prop
  | p, [] => p = none
  | p, a :: l => p = some a ∧ Chain next (next a) l

section Chain

variable {next : α → Option α} {p : Option α} {l xs ys : List α} {a b : α}

theorem Chain.head? (h : Chain next p l) : l.head? = p := by
  cases l with
  | nil => exact h.symm
  | cons a l => exact h.1.symm

theorem Chain.unique : ∀ {l l' : List α} {p : Option α}, Chain next p l → Chain next p l' → l = l'
  | [], [], _, _, _ => rfl
  | [], _ :: _, _, h, h' => by simp [Chain] at h h'; simp [h] at h'
  | _ :: _, [], _, h, h' => by simp [Chain] at h h'; simp [h'] at h
  | a :: l, b :: l', p, ⟨h1, h2⟩, ⟨h1', h2'⟩ => by
    obtain rfl : a = b := by rw [h1] at h1'; simpa using h1'
    rw [Chain.unique h2 h2']

theorem Chain.suffix : ∀ (xs : List α) {p : Option α}, Chain next p (xs ++ a :: ys) →
    Chain next (some a) (a :: ys)
  | [], _, h => ⟨rfl, h.2⟩
  | _ :: xs, _, h => Chain.suffix xs h.2

theorem Chain.next_eq (h : Chain next p (xs ++ a :: ys)) : next a = ys.head? :=
  (Chain.head? (Chain.suffix _ h).2).symm

/-- A cell met twice would start two chains of different lengths. -/
theorem Chain.nodup : ∀ {l : List α} {p : Option α}, Chain next p l → l.Nodup
  | [], _, _ => List.nodup_nil
  | a :: l, _, h => by
    refine List.nodup_cons.2 ⟨fun hm => ?_, Chain.nodup h.2⟩
    obtain ⟨xs, ys, rfl⟩ := List.append_of_mem hm
    have h1 : Chain next (some a) (a :: ys) := Chain.suffix (a :: xs) (p := some a) ⟨rfl, h.2⟩
    have h2 : Chain next (some a) (a :: (xs ++ a :: ys)) := ⟨rfl, h.2⟩
    have := congrArg List.length (Chain.unique h1 h2)
    simp only [List.length_cons, List.length_append] at this
    omega

variable [DecidableEq α]

theorem Chain.update_of_notMem {x : Option α} : ∀ {l : List α} {p : Option α}, a ∉ l →
    Chain next p l → Chain (Function.update next a x) p l
  | [], _, _, h => h
  | b :: l, _, ha, h => by
    simp only [List.mem_cons, not_or] at ha
    refine ⟨h.1, ?_⟩
    rw [Function.update_of_ne (Ne.symm ha.1)]
    exact Chain.update_of_notMem ha.2 h.2

/-- Redirecting a cell cuts the chain after it and goes on with the new target's. -/
theorem Chain.redirect {x : Option α} {zs : List α} : ∀ {xs : List α} {p : Option α},
    Chain next p (xs ++ a :: ys) → Chain (Function.update next a x) x zs →
    Chain (Function.update next a x) p (xs ++ a :: zs)
  | [], _, h, hz => ⟨h.1, by rw [Function.update_self]; exact hz⟩
  | c :: xs, _, h, hz => by
    have hc : c ≠ a := by
      rintro rfl
      have := (Chain.nodup h)
      simp at this
    refine ⟨h.1, ?_⟩
    rw [Function.update_of_ne hc]
    exact Chain.redirect h.2 hz

/-- Unlinking the cell after `a`. -/
theorem Chain.unlink (h : Chain next p (xs ++ a :: b :: ys)) :
    Chain (Function.update next a (next b)) p (xs ++ a :: ys) := by
  refine Chain.redirect h (Chain.update_of_notMem ?_ ?_)
  · intro hm
    have := Chain.nodup (Chain.suffix _ h)
    simp [hm] at this
  · exact (Chain.suffix (xs ++ [a]) (by simpa using h)).2

/-- Linking a new last cell `b` behind the last cell `a`. -/
theorem Chain.concat (h : Chain next p (xs ++ [a])) (hb : b ∉ xs ++ [a]) (hn : next b = none) :
    Chain (Function.update next a (some b)) p (xs ++ [a, b]) := by
  refine Chain.redirect h ⟨rfl, ?_⟩
  rw [Function.update_of_ne (by rintro rfl; simp at hb), hn]
  rfl

end Chain

section Walks

variable (next : α → Option α)

/-- `while (p != NULL) { if (P p) break; p = p->next; }` -/
def find (P : α → Bool) : ℕ → Option α → Except Fault (Option α)
  | 0, _ => .error .diverges
  | _ + 1, none => .ok none
  | fuel + 1, some a => if P a then .ok (some a) else find P fuel (next a)

/-- `while (p->next != target) p = p->next;` -/
def pred [DecidableEq α] (target : Option α) : ℕ → Option α → Except Fault α
  | 0, _ => .error .diverges
  | _ + 1, none => .error .null
  | fuel + 1, some a => if next a = target then .ok a else pred target fuel (next a)

/-- `while (p->next != NULL) p = p->next;` -/
def last : ℕ → Option α → Except Fault α
  | 0, _ => .error .diverges
  | _ + 1, none => .error .null
  | fuel + 1, some a => if (next a).isNone then .ok a else last fuel (next a)

variable {next} {p : Option α} {l xs ys : List α} {a b : α}

theorem find_eq (P : α → Bool) : ∀ {fuel : ℕ} {l : List α} {p : Option α}, Chain next p l →
    l.length < fuel → find next P fuel p = .ok (l.find? P)
  | 0, _, _, _, hf => by omega
  | fuel + 1, [], _, h, _ => by
    cases h
    rfl
  | fuel + 1, a :: l, _, ⟨h1, h2⟩, hf => by
    subst h1
    have ih : find next P fuel (next a) = .ok (l.find? P) := find_eq P h2 (by simpa using hf)
    by_cases ha : P a
    · simp [find, ha]
    · simp [find, ha, ih]

theorem pred_eq [DecidableEq α] : ∀ {fuel : ℕ} {xs : List α} {p : Option α},
    Chain next p (xs ++ a :: b :: ys) → (xs ++ a :: b :: ys).length < fuel →
    pred next (some b) fuel p = .ok a
  | 0, _, _, _, hf => by omega
  | fuel + 1, [], p, h, _ => by
    obtain ⟨rfl, h2⟩ := h
    have : next a = some b := h2.1
    simp [pred, this]
  | fuel + 1, c :: xs, p, h, hf => by
    have hne : next c ≠ some b := by
      intro hc
      have hd := Chain.nodup h
      have h2 := h.2
      rw [hc] at h2
      cases xs with
      | nil =>
        have : a = b := by simpa using h2.1.symm
        subst this
        simp at hd
      | cons d xs =>
        have : d = b := by simpa using h2.1.symm
        subst this
        simp at hd
    obtain ⟨rfl, h2⟩ := h
    simp only [pred, hne, if_false]
    exact pred_eq h2 (by simpa using hf)

/-- Looking for the predecessor of a cell that has none runs off the chain. -/
theorem pred_null [DecidableEq α] : ∀ {fuel : ℕ} {l : List α} {p : Option α}, Chain next p l →
    b ∉ l.tail → l.length < fuel → pred next (some b) fuel p = .error .null
  | 0, _, _, _, _, hf => by omega
  | fuel + 1, [], _, h, _, _ => by
    cases h
    rfl
  | fuel + 1, c :: l, _, ⟨h1, h2⟩, hb, hf => by
    subst h1
    have hne : next c ≠ some b := by
      intro hc
      rw [← Chain.head? h2] at hc
      exact hb (List.mem_of_mem_head? hc)
    simp only [pred, hne, if_false]
    refine pred_null h2 (fun hm => hb ?_) (by simpa using hf)
    exact List.mem_of_mem_tail hm

theorem last_eq : ∀ {fuel : ℕ} {xs : List α} {p : Option α}, Chain next p (xs ++ [a]) →
    (xs ++ [a]).length < fuel → last next fuel p = .ok a
  | 0, _, _, _, hf => by omega
  | fuel + 1, [], p, h, _ => by
    obtain ⟨rfl, h2⟩ := h
    have : next a = none := h2
    simp [last, this]
  | fuel + 1, c :: xs, p, h, hf => by
    obtain ⟨rfl, h2⟩ := h
    have hn : (next c).isNone = false := by
      rw [← Chain.head? h2]
      cases xs <;> rfl
    simp only [last, hn]
    exact last_eq h2 (by simpa using hf)

/-- A chain of cells numbered below `n` is no longer than `n`. -/
theorem Chain.length_le {next : ℕ → Option ℕ} {p : Option ℕ} {l : List ℕ} {n : ℕ}
    (h : Chain next p l) (hn : ∀ a ∈ l, a < n) : l.length ≤ n := by
  have hsub : l ⊆ List.range n := fun a ha => List.mem_range.2 (hn a ha)
  simpa using (List.subperm_of_subset h.nodup hsub).length_le

end Walks

end Linked
