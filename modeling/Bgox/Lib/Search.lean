import Mathlib.Data.List.Basic
import Mathlib.Tactic.Common

/-!
# Searching a list for another one

A search that takes its next attempt behind the element on which the last one has failed.  An
attempt that fails is a part of the query and an element that does not go on with it, and what is
found is a place of the query in front of which there are such attempts only (`Hit`).  The first
place is one of them in every list exactly if the elements of the query are all the same
(`attempts_of_first`, `eq_replicate_of_attempts`).
-/

namespace Search

variable {α : Type*} {q s : List α} {c : α} {i m : ℕ}

/-- The query `q` begins at the place `i` of `s`. -/
def OccursAt (q s : List α) (i : ℕ) : Prop := q <+: s.drop i

/-- And nowhere in front of it. -/
structure FirstAt (q s : List α) (i : ℕ) : Prop where
  occurs : OccursAt q s i
  first : ∀ j < i, ¬ OccursAt q s j

/-- A list of attempts that fail. -/
inductive Attempts (q : List α) : List α → Prop
  | nil : Attempts q []
  | cons {m : ℕ} {c : α} {s : List α} (hm : m < q.length) (hc : c ≠ q[m]) (hs : Attempts q s) :
      Attempts q (q.take m ++ c :: s)

/-- A place the attempts come to. -/
structure Hit (q s : List α) (i : ℕ) : Prop where
  occurs : OccursAt q s i
  attempts : Attempts q (s.take i)

/-- The first place the attempts come to, if there is one. -/
def Found (q s : List α) : Option ℕ → Prop
  | none => ∀ i, ¬ Hit q s i
  | some i => Hit q s i ∧ ∀ j < i, ¬ Hit q s j

theorem OccursAt.add_length_le (h : OccursAt q s i) (hq : q ≠ []) :
    i + q.length ≤ s.length := by
  have hlen := h.length_le
  have hpos := List.length_pos_iff.2 hq
  rw [List.length_drop] at hlen
  omega

theorem OccursAt.getElem? (h : OccursAt q s i) {k : ℕ} (hk : k < q.length) :
    s[i + k]? = some q[k] := by
  obtain ⟨t, ht⟩ := h
  rw [← List.getElem?_drop, ← ht, List.getElem?_append_left hk, List.getElem?_eq_getElem hk]

theorem OccursAt.exists_first (h : OccursAt q s i) : ∃ j ≤ i, FirstAt q s j := by
  induction i using Nat.strongRecOn with
  | _ i ih =>
    by_cases hfirst : ∀ j < i, ¬ OccursAt q s j
    · exact ⟨i, Nat.le_refl i, h, hfirst⟩
    · push Not at hfirst
      obtain ⟨j, hj, hoccurs⟩ := hfirst
      obtain ⟨k, hk, hk'⟩ := ih j hj hoccurs
      exact ⟨k, by omega, hk'⟩

theorem FirstAt.unique {j : ℕ} (hi : FirstAt q s i) (hj : FirstAt q s j) : i = j := by
  rcases Nat.lt_trichotomy i j with h | h | h
  · exact absurd hi.occurs (hj.first i h)
  · exact h
  · exact absurd hj.occurs (hi.first j h)

/-! ## An attempt that fails -/

section Mismatch

variable (hm : m < q.length) (hc : c ≠ q[m])
include hm

theorem getElem?_mismatch (s : List α) : (q.take m ++ c :: s)[m]? = some c := by
  have hlen : (q.take m).length = m := List.length_take_of_le (Nat.le_of_lt hm)
  rw [List.getElem?_append_right (by omega), hlen, Nat.sub_self]
  rfl

theorem getElem?_part {k : ℕ} (hk : k < m) (s : List α) :
    (q.take m ++ c :: s)[k]? = some q[k] := by
  rw [List.getElem?_append_left (by rw [List.length_take]; omega), List.getElem?_take_of_lt hk,
    List.getElem?_eq_getElem (by omega)]

theorem occursAt_add (j : ℕ) : OccursAt q (q.take m ++ c :: s) (j + (m + 1)) ↔ OccursAt q s j := by
  have hlen : (q.take m ++ [c]).length = m + 1 := by
    rw [List.length_append, List.length_take_of_le (Nat.le_of_lt hm)]
    rfl
  rw [OccursAt, OccursAt, List.append_cons, Nat.add_comm j, ← List.drop_drop, ← hlen,
    List.drop_left]

theorem take_add_mismatch (j : ℕ) :
    (q.take m ++ c :: s).take (j + (m + 1)) = q.take m ++ c :: s.take j := by
  have hlen : (q.take m).length = m := List.length_take_of_le (Nat.le_of_lt hm)
  rw [List.take_append, hlen, show j + (m + 1) - m = j + 1 by omega, List.take_succ_cons,
    List.take_of_length_le (by omega)]

include hc

theorem not_occursAt_zero : ¬ OccursAt q (q.take m ++ c :: s) 0 := by
  intro h
  have hat := h.getElem? hm
  rw [Nat.zero_add, getElem?_mismatch hm] at hat
  exact hc (Option.some.inj hat)

/-- A list begins with one such attempt only. -/
theorem mismatch_unique {n : ℕ} {d : α} {t : List α} (hn : n < q.length) (hd : d ≠ q[n])
    (h : q.take n ++ d :: t <+: q.take m ++ c :: s) : n = m := by
  have hat : ∀ {k : ℕ} {e : α}, (q.take n ++ d :: t)[k]? = some e →
      (q.take m ++ c :: s)[k]? = some e := by
    obtain ⟨u, hu⟩ := h
    intro k e hk
    rw [← hu, List.getElem?_append_left (List.getElem?_eq_some_iff.1 hk).1, hk]
  rcases Nat.lt_trichotomy n m with hlt | heq | hlt
  · have hdn := hat (getElem?_mismatch hn t)
    rw [getElem?_part hm hlt] at hdn
    exact absurd (Option.some.inj hdn).symm hd
  · exact heq
  · have hcm := hat (getElem?_part hn hlt t)
    rw [getElem?_mismatch hm] at hcm
    exact absurd (Option.some.inj hcm) hc

/-- The next attempt is behind the element on which the last one has failed. -/
theorem hit_mismatch : Hit q (q.take m ++ c :: s) i ↔ ∃ j, i = j + (m + 1) ∧ Hit q s j := by
  constructor
  · rintro ⟨hoccurs, hattempts⟩
    have hi : i ≠ 0 := by
      rintro rfl
      exact not_occursAt_zero hm hc hoccurs
    rcases hf : (q.take m ++ c :: s).take i with _ | ⟨a, f⟩
    · simp [hi] at hf
    rw [hf] at hattempts
    generalize hg : a :: f = g at hf hattempts
    cases hattempts with
    | nil => cases hg
    | @cons n d t hn hd ht =>
      obtain rfl : n = m := mismatch_unique hm hc hn hd (hf ▸ List.take_prefix i _)
      have hlt : n < i := by
        have hlen := congrArg List.length hf
        simp only [List.length_take, List.length_append, List.length_cons] at hlen
        omega
      obtain ⟨j, rfl⟩ : ∃ j, i = j + (n + 1) := ⟨i - (n + 1), by omega⟩
      rw [take_add_mismatch hm, List.append_cancel_left_eq, List.cons.injEq] at hf
      exact ⟨j, rfl, (occursAt_add hm j).1 hoccurs, hf.2 ▸ ht⟩
  · rintro ⟨j, rfl, hoccurs, hattempts⟩
    refine ⟨(occursAt_add hm j).2 hoccurs, ?_⟩
    rw [take_add_mismatch hm]
    exact .cons hm hc hattempts

theorem Found.mismatch : ∀ {r : Option ℕ}, Found q s r →
    Found q (q.take m ++ c :: s) (r.map (· + (m + 1)))
  | none, h => by
    intro i hi
    obtain ⟨j, -, hj⟩ := (hit_mismatch hm hc).1 hi
    exact h j hj
  | some i, ⟨hi, hfirst⟩ => by
    refine ⟨(hit_mismatch hm hc).2 ⟨i, rfl, hi⟩, fun j hj hhit => ?_⟩
    obtain ⟨k, rfl, hk⟩ := (hit_mismatch hm hc).1 hhit
    exact hfirst k (Nat.lt_of_add_lt_add_right hj) hk

end Mismatch

/-! ## Queries that are found -/

/-- What is found is the first place exactly if there are failed attempts only in front of that. -/
theorem Found.first_iff {r : Option ℕ} (h : Found q s r) :
    ((∃ i, r = some i ∧ FirstAt q s i) ∨ r = none ∧ ∀ i, ¬ OccursAt q s i) ↔
      ∀ i, FirstAt q s i → Attempts q (s.take i) := by
  constructor
  · rintro (⟨i, rfl, hi⟩ | ⟨-, hno⟩) j hj
    · rw [← hi.unique hj]
      exact h.1.attempts
    · exact absurd hj.occurs (hno j)
  · intro hall
    rcases r with _ | i
    · refine .inr ⟨rfl, fun i hi => ?_⟩
      obtain ⟨j, -, hj⟩ := hi.exists_first
      exact h j ⟨hj.occurs, hall j hj⟩
    · obtain ⟨hi, hfirst⟩ := h
      obtain ⟨j, hle, hj⟩ := hi.occurs.exists_first
      obtain rfl | hlt := Nat.eq_or_lt_of_le hle
      · exact .inl ⟨j, rfl, hj⟩
      · exact absurd ⟨hj.occurs, hall j hj⟩ (hfirst j hlt)

/-- A list that does not begin with the query ends within it, or an attempt fails. -/
theorem exists_mismatch : ∀ {q s : List α}, ¬ q <+: s → s.length < q.length ∨
    ∃ m c rest, ∃ hm : m < q.length, c ≠ q[m] ∧ s = q.take m ++ c :: rest
  | [], s, h => absurd (List.nil_prefix) h
  | _ :: _, [], _ => .inl (Nat.succ_pos _)
  | a :: q, b :: s, h => by
    by_cases hab : b = a
    · subst hab
      have hq : ¬ q <+: s := fun hq => h (List.cons_prefix_cons.2 ⟨rfl, hq⟩)
      rcases exists_mismatch hq with hlen | ⟨m, c, rest, hm, hc, rfl⟩
      · exact .inl (Nat.succ_lt_succ hlen)
      · exact .inr ⟨m + 1, c, rest, Nat.succ_lt_succ hm, hc, rfl⟩
    · exact .inr ⟨0, b, s, Nat.succ_pos _, hab, rfl⟩

/-- No attempt runs over the first place of a query of one element, repeated. -/
theorem attempts_of_first {a : α} {n : ℕ} (hn : n ≠ 0) : ∀ {i : ℕ} {s : List α},
    FirstAt (List.replicate n a) s i → Attempts (List.replicate n a) (s.take i) := by
  intro i
  induction i using Nat.strongRecOn with
  | _ i ih =>
    intro s h
    rcases Nat.eq_zero_or_pos i with rfl | hi
    · exact .nil
    have hplace := h.occurs.add_length_le (by simpa using hn)
    rcases exists_mismatch (h.first 0 hi) with hlen | ⟨m, c, rest, hm, hc, rfl⟩
    · simp only [List.length_drop] at hlen
      omega
    obtain hlt : m < i := by
      by_contra hle
      have hat := h.occurs.getElem? (k := m - i) (by rw [List.length_replicate] at hm ⊢; omega)
      rw [Nat.add_sub_cancel' (Nat.le_of_not_lt hle), getElem?_mismatch hm,
        List.getElem_replicate] at hat
      rw [List.getElem_replicate] at hc
      exact hc (Option.some.inj hat)
    obtain ⟨j, rfl⟩ : ∃ j, i = j + (m + 1) := ⟨i - (m + 1), by omega⟩
    have hfirst : FirstAt (List.replicate n a) rest j :=
      ⟨(occursAt_add hm j).1 h.occurs, fun k hk hoccurs =>
        h.first (k + (m + 1)) (by omega) ((occursAt_add hm k).2 hoccurs)⟩
    rw [take_add_mismatch hm]
    exact .cons hm hc (ih j (by omega) hfirst)

theorem eq_replicate_of_prefix {a : α} : ∀ {p : List α}, p <+: a :: p →
    p = List.replicate p.length a
  | [], _ => rfl
  | b :: p, h => by
    obtain ⟨rfl, hp⟩ := List.cons_prefix_cons.1 h
    rw [List.length_cons, List.replicate_succ, ← eq_replicate_of_prefix hp]

/-- A query is found behind another element like its first one only if all are like that one: the
attempt in front of it would have gone on over its first element. -/
theorem eq_replicate_of_attempts {a : α} {p : List α}
    (h : ∀ i, FirstAt (a :: p) (a :: a :: p) i → Attempts (a :: p) ((a :: a :: p).take i)) :
    a :: p = List.replicate (a :: p).length a := by
  have hone : OccursAt (a :: p) (a :: a :: p) 1 := List.prefix_rfl
  obtain ⟨i, hi, hfirst⟩ := hone.exists_first
  rcases Nat.eq_zero_or_pos i with rfl | hpos
  · exact eq_replicate_of_prefix hfirst.occurs
  obtain rfl : i = 1 := by omega
  have hattempts := h 1 hfirst
  generalize hg : (a :: a :: p).take 1 = g at hattempts
  cases hattempts with
  | nil => cases hg
  | @cons m c s hm hc _ =>
    rcases m with _ | m
    · exact absurd (List.cons.inj hg).1.symm hc
    · simp at hg

end Search
