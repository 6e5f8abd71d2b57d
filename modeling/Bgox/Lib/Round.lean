import Mathlib.Data.List.Basic
import Mathlib.Data.List.Nodup
import Mathlib.Tactic.Common

/-!
# Going round a list

`dist l a b` is how many steps it takes from `a` to come to `b`, if the first element follows the
last.  An element that is met on the way cuts the way in two (`dist_add`); a new last element makes
a way longer by one at most (`dist_append_le`), and an element that is taken out shortens the ways
it was on (`dist_erase_lt`) and lengthens none (`dist_erase_le`).
-/

namespace Round

variable {α : Type*} [DecidableEq α] {l : List α} {a b c x : α}

def dist (l : List α) (a b : α) : ℕ :=
  if l.idxOf a < l.idxOf b then l.idxOf b - l.idxOf a else l.length - l.idxOf a + l.idxOf b

theorem dist_pos (ha : a ∈ l) : 0 < dist l a b := by
  have := List.idxOf_lt_length_of_mem ha
  unfold dist
  split_ifs <;> omega

theorem dist_le (hb : b ∈ l) : dist l a b ≤ l.length := by
  have := List.idxOf_lt_length_of_mem hb
  unfold dist
  split_ifs <;> omega

theorem dist_self (ha : a ∈ l) : dist l a a = l.length := by
  have := List.idxOf_lt_length_of_mem ha
  unfold dist
  split_ifs <;> omega

/-- `c` is met before `b`. -/
theorem dist_add (hc : c ∈ l) (h : dist l a c < dist l a b) :
    dist l a c + dist l c b = dist l a b := by
  have := List.idxOf_lt_length_of_mem hc
  have := l.idxOf_le_length (a := b)
  unfold dist at h ⊢
  split_ifs at h ⊢ <;> omega

/-- Behind `a` come `ys` and then `c`. -/
theorem dist_lt_of_notMem {xs ys zs : List α} (hd : (xs ++ a :: (ys ++ c :: zs)).Nodup)
    (hys : b ∉ ys) (hne : b ≠ c) :
    dist (xs ++ a :: (ys ++ c :: zs)) a c < dist (xs ++ a :: (ys ++ c :: zs)) a b := by
  have hapart := List.nodup_append.1 hd
  have hax : a ∉ xs := fun h => hapart.2.2 a h a List.mem_cons_self rfl
  have hcx : c ∉ xs := fun h => hapart.2.2 c h c (by simp) rfl
  have hca : a ≠ c := fun h => (List.nodup_cons.1 hapart.2.1).1 (by simp [h])
  have hcy : c ∉ ys := fun h =>
    (List.nodup_append.1 (List.nodup_cons.1 hapart.2.1).2).2.2 c h c List.mem_cons_self rfl
  have hia : (xs ++ a :: (ys ++ c :: zs)).idxOf a = xs.length := by
    rw [List.idxOf_append_of_notMem hax, List.idxOf_cons_self, Nat.add_zero]
  have hic : (xs ++ a :: (ys ++ c :: zs)).idxOf c = xs.length + (ys.length + 1) := by
    rw [List.idxOf_append_of_notMem hcx, List.idxOf_cons_ne _ hca,
      List.idxOf_append_of_notMem hcy, List.idxOf_cons_self]
  by_cases hbx : b ∈ xs
  · have hib : (xs ++ a :: (ys ++ c :: zs)).idxOf b = xs.idxOf b := List.idxOf_append_of_mem hbx
    have := List.idxOf_lt_length_of_mem hbx
    unfold dist
    rw [hia, hic, hib]
    simp only [List.length_append, List.length_cons]
    split_ifs <;> omega
  · by_cases hba : b = a
    · unfold dist
      rw [hba, hia, hic]
      simp only [List.length_append, List.length_cons]
      split_ifs <;> omega
    · have hib : (xs ++ a :: (ys ++ c :: zs)).idxOf b
          = xs.length + (ys.length + (zs.idxOf b + 1) + 1) := by
        rw [List.idxOf_append_of_notMem hbx, List.idxOf_cons_ne _ (Ne.symm hba),
          List.idxOf_append_of_notMem hys, List.idxOf_cons_ne _ (Ne.symm hne)]
      unfold dist
      rw [hia, hic, hib]
      split_ifs <;> omega

/-- Behind `a` come `ys` and then the first element. -/
theorem dist_head_lt {xs ys : List α} (hd : (xs ++ a :: ys).Nodup) (hb : b ∈ xs ++ a :: ys)
    (hys : b ∉ ys) (hc : (xs ++ a :: ys).head? = some c) (hne : b ≠ c) :
    dist (xs ++ a :: ys) a c < dist (xs ++ a :: ys) a b := by
  have hax : a ∉ xs := fun h => (List.nodup_append.1 hd).2.2 a h a List.mem_cons_self rfl
  rcases xs with _ | ⟨x, xs⟩
  · obtain rfl : a = c := by simpa using hc
    exact absurd ((List.mem_cons.1 hb).resolve_left hne) hys
  · obtain rfl : x = c := by simpa using hc
    have hia : (x :: xs ++ a :: ys).idxOf a = (x :: xs).length := by
      rw [List.idxOf_append_of_notMem hax, List.idxOf_cons_self, Nat.add_zero]
    have hib : 0 < (x :: xs ++ a :: ys).idxOf b := by
      rw [List.cons_append, List.idxOf_cons_ne _ (Ne.symm hne)]
      exact Nat.succ_pos _
    have hle : (x :: xs ++ a :: ys).idxOf b ≤ (x :: xs).length := by
      by_cases hbx : b ∈ x :: xs
      · rw [List.idxOf_append_of_mem hbx]
        exact Nat.le_of_lt (List.idxOf_lt_length_of_mem hbx)
      · have hba : b = a := by simpa [hbx, hys] using List.mem_append.1 hb
        exact Nat.le_of_eq (hba ▸ hia)
    unfold dist
    rw [hia, List.cons_append, List.idxOf_cons_self, ← List.cons_append]
    split_ifs <;> omega

theorem dist_append_le (ha : a ∈ l) (hb : b ∈ l) (x : α) :
    dist (l ++ [x]) a b ≤ dist l a b + 1 := by
  unfold dist
  rw [List.idxOf_append_of_mem ha, List.idxOf_append_of_mem hb, List.length_append,
    List.length_singleton]
  split_ifs <;> omega

theorem dist_append_lt (ha : a ∈ l) (hb : b ∈ l) (hc : c ∈ l) (x : α)
    (h : dist l a c < dist l a b) : dist (l ++ [x]) a c < dist (l ++ [x]) a b := by
  have := List.idxOf_lt_length_of_mem hb
  unfold dist at h ⊢
  rw [List.idxOf_append_of_mem ha, List.idxOf_append_of_mem hb, List.idxOf_append_of_mem hc,
    List.length_append, List.length_singleton]
  split_ifs at h ⊢ <;> omega

theorem idxOf_erase (ha : a ∈ l) (hne : a ≠ x) : (l.erase x).idxOf a =
    if l.idxOf a < l.idxOf x then l.idxOf a else l.idxOf a - 1 := by
  induction l with
  | nil => simp at ha
  | cons y l ih =>
    by_cases hyx : y = x
    · subst hyx
      rw [List.erase_cons_head, List.idxOf_cons_ne _ (Ne.symm hne), List.idxOf_cons_self]
      simp
    · rw [List.erase_cons_tail (by simpa using hyx), List.idxOf_cons_ne _ hyx]
      by_cases hya : y = a
      · rw [hya, List.idxOf_cons_self, List.idxOf_cons_self]
        simp
      · have ha' : a ∈ l := (List.mem_cons.1 ha).resolve_left (Ne.symm hya)
        have hdiff : l.idxOf a ≠ l.idxOf x := fun he => hne ((List.idxOf_inj ha').1 he)
        rw [List.idxOf_cons_ne _ hya, List.idxOf_cons_ne _ hya, ih ha']
        split_ifs <;> omega

theorem dist_erase_le (hx : x ∈ l) (ha : a ∈ l) (hb : b ∈ l) (hax : a ≠ x) (hbx : b ≠ x) :
    dist (l.erase x) a b ≤ dist l a b := by
  have hdax : l.idxOf a ≠ l.idxOf x := fun he => hax ((List.idxOf_inj ha).1 he)
  have hdbx : l.idxOf b ≠ l.idxOf x := fun he => hbx ((List.idxOf_inj hb).1 he)
  have := List.idxOf_lt_length_of_mem ha
  unfold dist
  rw [idxOf_erase ha hax, idxOf_erase hb hbx, List.length_erase_of_mem hx]
  split_ifs <;> omega

/-- An element that was on the way is taken out. -/
theorem dist_erase_lt (hx : x ∈ l) (ha : a ∈ l) (hb : b ∈ l) (hax : a ≠ x) (hbx : b ≠ x)
    (h : dist l a x < dist l a b) : dist (l.erase x) a b < dist l a b := by
  have hdax : l.idxOf a ≠ l.idxOf x := fun he => hax ((List.idxOf_inj ha).1 he)
  have hdbx : l.idxOf b ≠ l.idxOf x := fun he => hbx ((List.idxOf_inj hb).1 he)
  have := List.idxOf_lt_length_of_mem hb
  have := List.idxOf_lt_length_of_mem hx
  unfold dist at h ⊢
  rw [idxOf_erase ha hax, idxOf_erase hb hbx, List.length_erase_of_mem hx]
  split_ifs at h ⊢ <;> omega

end Round
