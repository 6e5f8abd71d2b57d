import Mathlib.Data.List.Basic
import Mathlib.Logic.Function.Basic
import Mathlib.Tactic.Common

/-!
# Tables of tables

A walk goes from a table down one entry per index; `child` says which table an entry leads to, if
it is present.  The last entry of a walk of `d` steps leads to whatever the tables map to, so only
the entries of the first `d - 1` levels lead to tables.

Several roots may share tables below them.  What keeps the walks apart is that a table stands for
one list of indices, the same from every root: `Tree` labels it with that list.  Writing outside
the tables (`Tree.outside`), giving a page a place among them (`Tree.label`), an entry that leads
to the table in its place (`Tree.link`) and an entry of the last level (`Tree.leaf`) keep the
labels.  A new empty table changes no walk (`Tree.alloc_frame`), and an entry of the last level
only the one it is made for.
-/

namespace Radix

variable {α ι ε : Type*}

section Walk

variable (child : ε → Option α)

/-- The entries a walk from a table meets, if all of them are present. -/
def trail (s : α → ι → ε) : α → List ι → Option (List ε)
  | _, [] => some []
  | n, i :: is =>
    match child (s n i) with
    | none => none
    | some c => (trail s c is).map (s n i :: ·)

/-- The tables a walk goes through. -/
def visits (s : α → ι → ε) : α → List ι → List α
  | _, [] => []
  | n, i :: is =>
    match child (s n i) with
    | none => [n]
    | some c => n :: visits s c is

variable {child}

@[simp] theorem trail_nil (s : α → ι → ε) (n : α) : trail child s n [] = some [] := rfl

theorem trail_cons_none {s : α → ι → ε} {n : α} {i : ι} (h : child (s n i) = none) (is : List ι) :
    trail child s n (i :: is) = none := by
  simp [trail, h]

theorem trail_cons_some {s : α → ι → ε} {n c : α} {i : ι} (h : child (s n i) = some c)
    (is : List ι) : trail child s n (i :: is) = (trail child s c is).map (s n i :: ·) := by
  simp [trail, h]

theorem trail_cons_congr {s s' : α → ι → ε} {n : α} {i : ι} {is : List ι} (he : s' n i = s n i)
    (h : ∀ c, child (s n i) = some c → trail child s' c is = trail child s c is) :
    trail child s' n (i :: is) = trail child s n (i :: is) := by
  rcases hc : child (s n i) with _ | c
  · rw [trail_cons_none hc, trail_cons_none (he ▸ hc)]
  · rw [trail_cons_some hc, trail_cons_some (he ▸ hc), h c hc, he]

/-- Two tables with the same entry at the first index. -/
theorem trail_congr_head {s : α → ι → ε} {m n : α} {i : ι} (h : s m i = s n i) (is : List ι) :
    trail child s m (i :: is) = trail child s n (i :: is) := by
  simp [trail, h]

end Walk

section Tables

variable (child : ε → Option α) (d : ℕ)

/-- The tables are labelled with the indices that lead to them. -/
def Tree (s : α → ι → ε) (lab : α → Option (List ι)) : Prop :=
  ∀ n l i c, lab n = some l → l.length + 1 < d → child (s n i) = some c →
    lab c = some (l ++ [i])

/-- The tables grow: labels stay, an entry that is present stays present, and the present entries of
the first `k` levels are the ones they were. -/
structure Ext (k : ℕ) (s : α → ι → ε) (lab : α → Option (List ι)) (s' : α → ι → ε)
    (lab' : α → Option (List ι)) : Prop where
  tree : Tree child d s' lab'
  mono : ∀ n l, lab n = some l → lab' n = some l
  keep : ∀ n l i c, lab n = some l → l.length + 1 < d → l.length < k → child (s n i) = some c →
    s' n i = s n i
  stay : ∀ n l i c, lab n = some l → l.length + 1 < d → child (s n i) = some c →
    ∃ c', child (s' n i) = some c'

/-- No walk but the one along `ks` has changed. -/
def Frame (ks : List ι) (s : α → ι → ε) (lab : α → Option (List ι)) (s' : α → ι → ε) : Prop :=
  ∀ n l is, lab n = some l → (l ++ is).length = d → l ++ is ≠ ks →
    trail child s' n is = trail child s n is

variable {child d} {k : ℕ} {s s' s'' : α → ι → ε} {lab lab' lab'' : α → Option (List ι)}

theorem Ext.refl (h : Tree child d s lab) : Ext child d k s lab s lab where
  tree := h
  mono := fun _ _ h => h
  keep := fun _ _ _ _ _ _ _ _ => rfl
  stay := fun _ _ _ c _ _ hc => ⟨c, hc⟩

theorem Ext.trans (h : Ext child d k s lab s' lab') (h' : Ext child d k s' lab' s'' lab'') :
    Ext child d k s lab s'' lab'' where
  tree := h'.tree
  mono := fun n l hn => h'.mono n l (h.mono n l hn)
  keep := fun n l i c hn hl hk hc => by
    have he := h.keep n l i c hn hl hk hc
    rw [h'.keep n l i c (h.mono n l hn) hl hk (by rw [he, hc]), he]
  stay := fun n l i c hn hl hc => by
    obtain ⟨c', hc'⟩ := h.stay n l i c hn hl hc
    exact h'.stay n l i c' (h.mono n l hn) hl hc'

theorem Ext.weaken {j : ℕ} (h : Ext child d k s lab s' lab') (hj : j ≤ k) :
    Ext child d j s lab s' lab' where
  tree := h.tree
  mono := h.mono
  keep := fun n l i c hn hl hk hc => h.keep n l i c hn hl (Nat.lt_of_lt_of_le hk hj) hc
  stay := h.stay

theorem Frame.refl (ks : List ι) : Frame child d ks s lab s := fun _ _ _ _ _ _ => rfl

theorem Frame.trans {ks : List ι} (h : Frame child d ks s lab s')
    (hm : ∀ n l, lab n = some l → lab' n = some l) (h' : Frame child d ks s' lab' s'') :
    Frame child d ks s lab s'' := fun n l is hn hl hne =>
  (h' n l is (hm n l hn) hl hne).trans (h n l is hn hl hne)

/-- A walk from a labelled table looks at labelled tables only, and none above the one it starts
at. -/
theorem Tree.trail_congr (h : Tree child d s lab) {j : ℕ}
    (hs : ∀ n l, lab n = some l → j ≤ l.length → ∀ i, s' n i = s n i) :
    ∀ {is : List ι} {n : α} {l : List ι}, lab n = some l → j ≤ l.length → (l ++ is).length ≤ d →
    trail child s' n is = trail child s n is
  | [], _, _, _, _, _ => rfl
  | i :: is, n, l, hn, hj, hl => by
    refine trail_cons_congr (hs n l hn hj i) fun c hc => ?_
    cases is with
    | nil => rfl
    | cons i' is =>
      simp only [List.length_append, List.length_cons] at hl
      exact Tree.trail_congr h hs (h n l i c hn (by omega) hc) (by simp; omega) (by simp; omega)

theorem Tree.visits_labelled (h : Tree child d s lab) {m : α} :
    ∀ {is : List ι} {n : α} {l : List ι}, lab n = some l → (l ++ is).length ≤ d →
      m ∈ visits child s n is → ∃ l', lab m = some l'
  | [], _, _, _, _, hm => by cases hm
  | i :: is, n, l, hn, hlen, hm => by
    rw [visits] at hm
    rcases hc : child (s n i) with _ | c
    · simp only [hc, List.mem_singleton] at hm
      exact ⟨l, hm ▸ hn⟩
    · simp only [hc, List.mem_cons] at hm
      rcases hm with rfl | hm
      · exact ⟨l, hn⟩
      · cases is with
        | nil => cases hm
        | cons j is =>
          simp only [List.length_append, List.length_cons] at hlen
          exact h.visits_labelled (h n l i c hn (by omega) hc)
            (by simp only [List.length_append, List.length_cons, List.length_nil]; omega) hm

/-- Writes outside the tables are not seen. -/
theorem Tree.outside (h : Tree child d s lab)
    (hs : ∀ n l, lab n = some l → ∀ i, s' n i = s n i) :
    Ext child d k s lab s' lab ∧ ∀ ks, Frame child d ks s lab s' := by
  refine ⟨⟨fun n l i c hn hl hc => ?_, fun _ _ h => h, fun n l i _ hn _ _ _ => hs n l hn i,
    fun n l i c hn _ hc => ⟨c, by rw [hs n l hn, hc]⟩⟩,
    fun ks n l is hn hl _ =>
      h.trail_congr (fun n l hn _ => hs n l hn) hn (Nat.zero_le _) (by omega)⟩
  rw [hs n l hn] at hc
  exact h n l i c hn hl hc

variable [DecidableEq α]

/-- A table is given a place: its entries must lead to the places below it. -/
theorem Tree.label (h : Tree child d s lab) {f : α} (hf : lab f = none) {l : List ι}
    (hrow : ∀ i c, l.length + 1 < d → child (s f i) = some c → lab c = some (l ++ [i])) :
    Ext child d k s lab s (Function.update lab f (some l)) := by
  have hmono : ∀ m l', lab m = some l' → Function.update lab f (some l) m = some l' := by
    intro m l' hm
    have hmf : m ≠ f := by
      rintro rfl
      simp [hf] at hm
    simpa [hmf] using hm
  refine ⟨fun m l' i c hm hl' hc => hmono c _ ?_, hmono, fun _ _ _ _ _ _ _ _ => rfl,
    fun _ _ _ c _ _ hc => ⟨c, hc⟩⟩
  by_cases hmf : m = f
  · subst hmf
    obtain rfl : l = l' := by simpa using hm
    exact hrow i c hl' hc
  · exact h m l' i c (by simpa [hmf] using hm) hl' hc

/-- The tables with an empty one. -/
def clear (zero : ε) (s : α → ι → ε) (f : α) : α → ι → ε := Function.update s f fun _ => zero

theorem clear_of_ne {zero : ε} {m f : α} (h : m ≠ f) : clear zero s f m = s m := by
  simp [clear, h]

variable [DecidableEq ι]

/-- The tables with one entry written. -/
def set (s : α → ι → ε) (n : α) (i : ι) (e : ε) : α → ι → ε :=
  Function.update s n (Function.update (s n) i e)

theorem set_same (n : α) (i : ι) (e : ε) : set s n i e n i = e := by simp [set]

theorem set_of_ne {m n : α} {i j : ι} (e : ε) (h : m ≠ n ∨ j ≠ i) : set s n i e m j = s m j := by
  by_cases hm : m = n
  · subst hm
    rcases h with h | h
    · exact absurd rfl h
    · simp [set, h]
  · simp [set, hm]

/-- A walk that does not come by the entry written is not changed. -/
theorem Tree.trail_set (h : Tree child d s lab) {n : α} {l : List ι} {i : ι} {e : ε}
    (hn : lab n = some l) : ∀ {is : List ι} {m : α} {l' : List ι}, lab m = some l' →
    (l' ++ is).length = d → ¬ l ++ [i] <+: l' ++ is →
    trail child (set s n i e) m is = trail child s m is
  | [], _, _, _, _, _ => rfl
  | j :: is, m, l', hm, hl, hp => by
    have he : set s n i e m j = s m j := by
      refine set_of_ne e ?_
      by_contra hne
      obtain ⟨rfl, rfl⟩ : m = n ∧ j = i := by
        constructor <;> by_contra hc
        · exact hne (Or.inl hc)
        · exact hne (Or.inr hc)
      obtain rfl : l = l' := by simpa [hn] using hm
      exact hp ⟨is, by simp⟩
    refine trail_cons_congr he fun c hc => ?_
    cases is with
    | nil => rfl
    | cons j' is =>
      simp only [List.length_append, List.length_cons] at hl
      exact Tree.trail_set h hn (h m l' j c hm (by omega) hc) (by simp; omega) (by simpa using hp)

/-- Writing an entry of the last level. -/
theorem Tree.leaf (h : Tree child d s lab) {n : α} {l : List ι} (hn : lab n = some l)
    (hl : l.length + 1 = d) (i : ι) (e : ε) :
    Ext child d k s lab (set s n i e) lab ∧ Frame child d (l ++ [i]) s lab (set s n i e) := by
  have hne : ∀ m l', lab m = some l' → l'.length + 1 < d → ∀ j, set s n i e m j = s m j := by
    intro m l' hm hl' j
    refine set_of_ne e (Or.inl ?_)
    rintro rfl
    obtain rfl : l = l' := by simpa [hn] using hm
    omega
  refine ⟨⟨fun m l' j c hm hl' hc => ?_, fun _ _ h => h,
    fun m l' j _ hm hl' _ _ => hne m l' hm hl' j,
    fun m l' j c hm hl' hc => ⟨c, by rw [hne m l' hm hl', hc]⟩⟩, fun m l' is hm hl' hks => ?_⟩
  · rw [hne m l' hm hl'] at hc
    exact h m l' j c hm hl' hc
  · refine h.trail_set hn hm hl' fun hp => hks ?_
    exact (hp.eq_of_length (by rw [hl']; simpa using hl)).symm

variable {zero : ε} {n f : α} {l : List ι} {i : ι} {e : ε}

/-- An entry that leads to the table below it; overwriting a present entry is seen from level `k` on
only. -/
theorem Tree.link {c : α} (h : Tree child d s lab) (hn : lab n = some l) (he : child e = some c)
    (hc : lab c = some (l ++ [i])) (habs : child (s n i) = none ∨ k ≤ l.length) :
    Ext child d k s lab (set s n i e) lab := by
  have hold : ∀ {m j}, ¬ (m = n ∧ j = i) → set s n i e m j = s m j :=
    fun hij => set_of_ne e (by tauto)
  refine ⟨fun m l' j c' hm hl' hc' => ?_, fun _ _ h => h, fun m l' j c' hm _ hk hc' => ?_,
    fun m l' j c' hm _ hc' => ?_⟩ <;> by_cases hij : m = n ∧ j = i
  · obtain ⟨rfl, rfl⟩ := hij
    obtain rfl : l = l' := by simpa [hn] using hm
    obtain rfl : c = c' := by simpa [set_same, he] using hc'
    exact hc
  · rw [hold hij] at hc'
    exact h m l' j c' hm hl' hc'
  · obtain ⟨rfl, rfl⟩ := hij
    obtain rfl : l = l' := by simpa [hn] using hm
    rcases habs with habs | habs
    · simp [habs] at hc'
    · omega
  · exact hold hij
  · obtain ⟨rfl, rfl⟩ := hij
    exact ⟨c, by rw [set_same, he]⟩
  · exact ⟨c', by rw [hold hij, hc']⟩

section Alloc

variable (h : Tree child d s lab) (hz : child zero = none) (hn : lab n = some l)
  (hl : l.length + 1 < d) (hf : lab f = none) (he : child e = some f)

include hf in
theorem set_clear_of_labelled {m : α} {l' : List ι} (hm : lab m = some l') {j : ι}
    (hne : m ≠ n ∨ j ≠ i) : set (clear zero s f) n i e m j = s m j := by
  have hmf : m ≠ f := by
    rintro rfl
    simp [hf] at hm
  rw [set_of_ne e hne, clear_of_ne hmf]

include h hz hn hl hf he in
/-- The new table is empty, so where there was no entry there is no walk yet. -/
theorem Tree.alloc_frame (habs : child (s n i) = none) (ks : List ι) :
    Frame child d ks s lab (set (clear zero s f) n i e) := by
  rintro m l' is hm hlen -
  induction is generalizing m l' with
  | nil => rfl
  | cons j is ih =>
    by_cases hij : m = n ∧ j = i
    · obtain ⟨rfl, rfl⟩ := hij
      obtain rfl : l = l' := by simpa [hn] using hm
      have hmf : m ≠ f := by
        rintro rfl
        simp [hf] at hm
      rw [trail_cons_none habs, trail_cons_some (by rw [set_same, he])]
      cases is with
      | nil => simp at hlen; omega
      | cons j' is =>
        rw [trail_cons_none, Option.map_none]
        rw [set_of_ne e (Or.inl hmf.symm)]
        simp [clear, hz]
    · have hold : set (clear zero s f) n i e m j = s m j :=
        set_clear_of_labelled hf hm (by tauto)
      refine trail_cons_congr hold fun c hc => ?_
      cases is with
      | nil => rfl
      | cons j' is =>
        simp only [List.length_append, List.length_cons] at hlen
        exact ih c (l' ++ [j]) (h m l' j c hm (by omega) hc) (by simp; omega)

end Alloc

end Tables

end Radix
