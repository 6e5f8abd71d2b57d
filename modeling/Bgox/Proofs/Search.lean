import Bgox.Lib.Search
import Bgox.Shell

/-!
# `str_contains`

The loop goes on behind the byte on which an attempt has failed, and so finds a place of the query
only if there are failed attempts and nothing else in front of it.
-/

namespace Bgox

open Search
open Keyboard (chars)

variable {q s t : List UInt8}

/-- A run of the loop from the place `i` on, with `j` bytes of the query in front of it. -/
theorem containsLoop_found (t : List UInt8) : ∀ {s : List UInt8} (i j : ℕ) (start : ℤ), 0 ∉ s →
    j < q.length → (0 ≤ start ↔ 0 < j) → ∃ r, Found q (q.take j ++ s) r ∧
      containsLoop q (s ++ 0 :: t) i j start
        = .ok (r.map fun (p : ℕ) => (i : ℤ) - j + p + q.length - 1)
  | [], i, j, start, _, hj, _ => by
    refine ⟨none, fun p hp => ?_, rfl⟩
    have hplace := hp.occurs.add_length_le (List.length_pos_iff.1 (by omega))
    rw [List.append_nil, List.length_take] at hplace
    omega
  | c :: s, i, j, start, hs, hj, hstart => by
    obtain ⟨hc, hs⟩ := not_or.1 (mt List.mem_cons.2 hs)
    have hget : q.getD j 0 = q[j] := by
      rw [List.getD_eq_getElem?_getD, List.getElem?_eq_getElem hj, Option.getD_some]
    rw [List.cons_append, containsLoop, if_neg (Ne.symm hc), hget]
    by_cases heq : c = q[j]
    · have htake : q.take j ++ c :: s = q.take (j + 1) ++ s := by
        rw [List.take_succ_eq_append_getElem hj, heq, List.append_assoc, List.singleton_append]
      rw [if_pos heq, htake]
      by_cases hend : j + 1 = q.length
      · rw [if_pos hend, hend, List.take_length]
        refine ⟨some 0, ⟨⟨List.prefix_append q s, .nil⟩, by simp⟩, ?_⟩
        rw [Option.map_some]
        congr 2
        omega
      · rw [if_neg hend]
        obtain ⟨r, hr, hloop⟩ := containsLoop_found t (i + 1) (j + 1) i hs (by omega) (by omega)
        refine ⟨r, hr, ?_⟩
        rw [hloop]
        congr 2
        funext p
        omega
    · -- both branches go on with the first byte of the query
      obtain ⟨start', hneg, hreset⟩ : ∃ start' < 0,
          (if 0 ≤ start then containsLoop q (s ++ 0 :: t) (i + 1) 0 (-1)
            else containsLoop q (s ++ 0 :: t) (i + 1) j start)
              = containsLoop q (s ++ 0 :: t) (i + 1) 0 start' := by
        split_ifs with hge
        · exact ⟨-1, by decide, rfl⟩
        · obtain rfl : j = 0 := by omega
          exact ⟨start, by omega, rfl⟩
      rw [if_neg heq, hreset]
      obtain ⟨r, hr, hloop⟩ := containsLoop_found t (i + 1) 0 start' hs (by omega) (by omega)
      refine ⟨_, hr.mismatch hj heq, ?_⟩
      rw [hloop, Option.map_map]
      congr 3
      funext p
      simp only [Function.comp]
      omega

theorem strContains_found (hq : q ≠ []) (hs : 0 ∉ s) (t : List UInt8) :
    ∃ r, Found q s r ∧ strContains (s ++ 0 :: t) q = .ok (r.elim (-1) fun p => (p : ℤ)) := by
  obtain ⟨r, hr, hloop⟩ := containsLoop_found t 0 0 (-1) hs (List.length_pos_iff.2 hq)
    (by decide)
  refine ⟨r, hr, ?_⟩
  rw [strContains, hloop]
  rcases r with _ | p
  · rfl
  · simp only [Option.map_some, Option.elim_some, bind, Except.bind, pure, Except.pure]
    congr 1
    omega

/-- What a search for `q` in the string `s` is to return: its first place, or -1 if there is
none. -/
def Finds (q s t : List UInt8) : Prop := ∃ r, strContains (s ++ 0 :: t) q = .ok r ∧
  ((∃ i : ℕ, r = i ∧ FirstAt q s i) ∨ r = -1 ∧ ∀ i, ¬ OccursAt q s i)

theorem finds_iff (hq : q ≠ []) (hs : 0 ∉ s) (t : List UInt8) :
    Finds q s t ↔ ∀ i, FirstAt q s i → Attempts q (s.take i) := by
  obtain ⟨r, hr, hfound⟩ := strContains_found hq hs t
  rw [← hr.first_iff]
  constructor
  · rintro ⟨n, hn, hfinds⟩
    obtain rfl := Except.ok.inj (hfound.symm.trans hn)
    rcases r with _ | p
    · rcases hfinds with ⟨i, hi, -⟩ | ⟨-, hno⟩
      · exact absurd hi (by simp)
      · exact .inr ⟨rfl, hno⟩
    · rcases hfinds with ⟨i, hi, hfirst⟩ | ⟨hneg, -⟩
      · exact .inl ⟨i, congrArg some (Int.ofNat.inj hi), hfirst⟩
      · exact absurd hneg (by simp)
  · rintro (⟨i, rfl, hfirst⟩ | ⟨rfl, hno⟩)
    · exact ⟨_, hfound, .inl ⟨i, rfl, hfirst⟩⟩
    · exact ⟨_, hfound, .inr ⟨rfl, hno⟩⟩

/-- `str_contains` finds the query in a string exactly if there are only failed attempts in front
of its first place, and in all strings exactly if the query repeats one byte. -/
theorem strContains_finds_iff (hq : q ≠ []) (hnul : 0 ∉ q) :
    (∀ s t, 0 ∉ s → (Finds q s t ↔ ∀ i, FirstAt q s i → Attempts q (s.take i))) ∧
    ((∀ s t, 0 ∉ s → Finds q s t) ↔ ∃ c, q = List.replicate q.length c) := by
  refine ⟨fun s t hs => finds_iff hq hs t, fun h => ?_, ?_⟩
  · obtain ⟨a, p, rfl⟩ := List.exists_cons_of_ne_nil hq
    have hs : 0 ∉ a :: a :: p := by simpa using hnul
    exact ⟨a, eq_replicate_of_attempts ((finds_iff hq hs []).1 (h _ [] hs))⟩
  · rintro ⟨c, hc⟩ s t hs
    rw [finds_iff hq hs, hc]
    exact fun i => attempts_of_first (by simpa using hq)

theorem strContains_finds_amp : Finds (chars ['&']) (chars ['5', ' ', '&']) [] :=
  (strContains_finds_iff (q := chars ['&']) (by decide) (by decide)).2.2 ⟨38, rfl⟩ _ [] (by decide)

/-- The second `a` ends the attempt that the first one begins, and is not looked at again. -/
theorem strContains_misses : ¬ Finds (chars ['a', 'b']) (chars ['a', 'a', 'b']) [] ∧
    OccursAt (chars ['a', 'b']) (chars ['a', 'a', 'b']) 1 ∧
    strContains (chars ['a', 'a', 'b'] ++ [0]) (chars ['a', 'b']) = .ok (-1) := by
  have hoccurs : OccursAt (chars ['a', 'b']) (chars ['a', 'a', 'b']) 1 := List.prefix_rfl
  have hret : strContains (chars ['a', 'a', 'b'] ++ [0]) (chars ['a', 'b']) = .ok (-1) := by decide
  refine ⟨?_, hoccurs, hret⟩
  rintro ⟨r, hr, hfinds⟩
  obtain rfl := Except.ok.inj (hret.symm.trans hr)
  rcases hfinds with ⟨i, hi, -⟩ | ⟨-, hno⟩
  · omega
  · exact hno 1 hoccurs

end Bgox
