import Bgox.Files
import Bgox.Lib.Run
import Bgox.Proofs.Strings

/-!
# Two clients of the file system

What a call does depends on its own descriptor and on `bytesdone` (`step_congr`).  So the calls on
a descriptor are not seen by others as long as they leave `bytesdone` as it is, and they do so
exactly when they are `Harmless`: closing at position 0, or reading a single byte
(`reads_independent`).
-/

namespace Bgox

open Run (bind_eq_ok)

namespace Files

variable {mem : ℕ → UInt8} {s s' t : Files} {f : File} {c : Call} {a b i n : ℕ}

/-! ## Reading -/

/-- The length of what has been read, as a string. -/
def len (mem : ℕ → UInt8) (s : Files) (f : File) (n : ℕ) : ℕ :=
  ((bytesAt mem (s.bytestoRead f n).toNat (s.fileaddr f)).takeWhile (· ≠ 0)).length

theorem strLen_append_zero : ∀ l : List UInt8,
    strLen (l ++ [0]) = .ok (l.takeWhile (· ≠ 0)).length
  | [] => rfl
  | c :: l => by
    rw [List.cons_append, strLen, strLen_append_zero l]
    by_cases hc : c = 0
    · simp [hc]
    · simp [hc, pure, Except.pure, bind, Except.bind]

theorem readFile_eq (mem : ℕ → UInt8) (s : Files) (i n : ℕ) :
    s.readFile mem i n = .ok (if (s.fd i).size = 0 then (s, [], 0)
      else ({ s with bytesdone := int (s.bytesdone + (s.len mem (s.fd i) n - 1)) },
        bytesAt mem (s.bytestoRead (s.fd i) n).toNat (s.fileaddr (s.fd i)) ++ [0],
        toU64 (s.bytestoRead (s.fd i) n))) := by
  rw [readFile]
  split_ifs
  · rfl
  · dsimp only
    rw [strLen_append_zero]
    rfl

theorem bytestoRead_eq (s : Files) (f : File) (n : ℕ) :
    s.bytestoRead f n = int (min n (toU64 (int (f.size - s.bytesdone))) : ℕ) := by
  dsimp only [bytestoRead]
  congr 1
  split_ifs <;> omega

theorem int_lt (x : ℤ) : int x < 2 ^ 31 := Int.bmod_lt (by decide)

theorem le_int (x : ℤ) : -2 ^ 31 ≤ int x := Int.le_bmod (by decide)

theorem int_int (x : ℤ) : int (int x) = int x := Int.bmod_bmod

theorem int_eq_int_iff {x y : ℤ} : int x = int y ↔ x % 2 ^ 32 = y % 2 ^ 32 := by
  dsimp only [int, Int.bmod]
  constructor
  · intro h
    split_ifs at h <;> omega
  · intro h
    rw [show x % ((2 ^ 32 : ℕ) : ℤ) = y % ((2 ^ 32 : ℕ) : ℤ) from h]

theorem int_toU64 (x : ℤ) : int (toU64 x : ℕ) = int x := by
  rw [int_eq_int_iff, toU64]
  omega

@[simp] theorem length_bytesAt (mem : ℕ → UInt8) (n addr : ℕ) :
    (bytesAt mem n addr).length = n := by
  rw [bytesAt, List.length_map, List.length_range]

theorem bytesAt_succ (mem : ℕ → UInt8) (n addr : ℕ) :
    bytesAt mem (n + 1) addr = mem (addr % 2 ^ 64) :: bytesAt mem n (addr + 1) := by
  rw [bytesAt, List.range_succ_eq_map, List.map_cons, List.map_map, bytesAt]
  congr 1
  refine List.map_congr_left fun k _ => ?_
  rw [Function.comp_apply, Nat.add_right_comm, Nat.add_assoc, Nat.succ_eq_add_one]

theorem takeWhile_bytesAt_eq_one (mem : ℕ → UInt8) (n addr : ℕ) :
    ((bytesAt mem n addr).takeWhile (· ≠ 0)).length = 1 ↔
      0 < n ∧ mem (addr % 2 ^ 64) ≠ 0 ∧ (n = 1 ∨ mem ((addr + 1) % 2 ^ 64) = 0) := by
  rcases n with _ | _ | n
  · simp [bytesAt]
  · rw [bytesAt_succ, List.takeWhile_cons]
    generalize mem (addr % 2 ^ 64) = x
    by_cases hx : x = 0 <;> simp [hx, bytesAt]
  · rw [bytesAt_succ, bytesAt_succ, List.takeWhile_cons, List.takeWhile_cons]
    generalize mem (addr % 2 ^ 64) = x, mem ((addr + 1) % 2 ^ 64) = y
    by_cases hx : x = 0 <;> by_cases hy : y = 0 <;> simp [hx, hy]

theorem len_lt (mem : ℕ → UInt8) (s : Files) (f : File) (n : ℕ) : s.len mem f n < 2 ^ 31 := by
  have hle := (List.takeWhile_sublist (· ≠ 0)
    (l := bytesAt mem (s.bytestoRead f n).toNat (s.fileaddr f))).length_le
  have hint := int_lt (min n (toU64 (int (f.size - s.bytesdone))) : ℕ)
  rw [← bytestoRead_eq] at hint
  rw [length_bytesAt] at hle
  rw [len]
  omega

/-! ## Calls that leave the position alone -/

/-- At position 0, or for a single byte that is not 0: one is asked for, or left, or the next one
is 0. -/
def Harmless (mem : ℕ → UInt8) (s : Files) : Call → Prop
  | .read i bytes =>
    let count := int (min bytes (toU64 (int ((s.fd i).size - s.bytesdone))) : ℕ)
    let addr := toU64 ((s.fd i).addr + 512 + s.bytesdone)
    (s.fd i).size = 0 ∨
      0 < count ∧ mem (addr % 2 ^ 64) ≠ 0 ∧ (count = 1 ∨ mem ((addr + 1) % 2 ^ 64) = 0)
  | .close _ => s.bytesdone = 0

theorem harmless_read_iff : s.Harmless mem (.read i n) ↔
    (s.fd i).size = 0 ∨ s.len mem (s.fd i) n = 1 := by
  rw [Harmless, ← bytestoRead_eq, len, takeWhile_bytesAt_eq_one]
  refine or_congr_right (and_congr (by omega) (and_congr_right fun _ => or_congr_left ?_))
  omega

theorem step_read (mem : ℕ → UInt8) (s : Files) (i n : ℕ) : ∃ out,
    s.step mem (.read i n) = .ok ((if (s.fd i).size = 0 then s
      else { s with bytesdone := int (s.bytesdone + (s.len mem (s.fd i) n - 1)) }), [out]) ∧
      out.fd = i := by
  rw [step, readFile_eq]
  split_ifs <;> exact ⟨_, rfl, rfl⟩

/-- Such a call, and no other, leaves the position alone. -/
theorem step_bytesdone (mem : ℕ → UInt8) (c : Call) (hint : int s.bytesdone = s.bytesdone) :
    ∃ s' outs, s.step mem c = .ok (s', outs) ∧ (s'.bytesdone = s.bytesdone ↔ s.Harmless mem c) ∧
      int s'.bytesdone = s'.bytesdone ∧ (∀ i, i ≠ c.fd → s'.fd i = s.fd i) ∧
      ∀ o ∈ outs, o.fd = c.fd := by
  rcases c with ⟨i, n⟩ | i
  · obtain ⟨out, hstep, hout⟩ := step_read mem s i n
    refine ⟨_, _, hstep, ?_, ?_, ?_, fun o ho => ?_⟩
    · rw [harmless_read_iff]
      have hlen := s.len_lt mem (s.fd i) n
      split_ifs with h0
      · simp [h0]
      · rw [or_iff_right h0]
        have hback : int (s.bytesdone + (s.len mem (s.fd i) n - 1)) = s.bytesdone ↔
            int (s.bytesdone + (s.len mem (s.fd i) n - 1)) = int s.bytesdone := by rw [hint]
        refine hback.trans (int_eq_int_iff.trans ?_)
        omega
    · split_ifs
      · exact hint
      · exact int_int _
    · intro j _
      split_ifs <;> rfl
    · rw [List.mem_singleton.1 ho]
      exact hout
  · refine ⟨_, _, rfl, ⟨fun h => h.symm, fun h => h.symm⟩, rfl, fun j hj => ?_, by simp⟩
    exact Function.update_of_ne hj _ _

/-! ## Two runs -/

/-- The same but for one descriptor. -/
def Agree (b : ℕ) (s t : Files) : Prop := s.bytesdone = t.bytesdone ∧ ∀ i, i ≠ b → s.fd i = t.fd i

theorem step_congr (mem : ℕ → UInt8) (h : Agree b s t) (hc : c.fd ≠ b) : ∃ s' t' outs,
    s.step mem c = .ok (s', outs) ∧ t.step mem c = .ok (t', outs) ∧ Agree b s' t' := by
  obtain ⟨done, sfd⟩ := s
  obtain ⟨done', tfd⟩ := t
  obtain ⟨rfl, hfd⟩ : done = done' ∧ ∀ i, i ≠ b → sfd i = tfd i := h
  rcases c with ⟨i, n⟩ | i
  · have hi : sfd i = tfd i := hfd i hc
    simp only [step, readFile_eq, hi]
    split_ifs
    · exact ⟨_, _, _, rfl, rfl, rfl, hfd⟩
    · exact ⟨_, _, _, rfl, rfl, rfl, hfd⟩
  · refine ⟨_, _, _, rfl, rfl, rfl, fun j hj => ?_⟩
    dsimp only [close]
    by_cases hji : j = i
    · subst hji
      rw [Function.update_self, Function.update_self]
    · rw [Function.update_of_ne hji, Function.update_of_ne hji]
      exact hfd j hj

/-- Every call on `b` is harmless when it is made. -/
def HarmlessRun (mem : ℕ → UInt8) (b : ℕ) : Files → List Call → Prop
  | _, [] => True
  | s, c :: cs => (c.fd = b → s.Harmless mem c) ∧
    ∀ s' outs, s.step mem c = .ok (s', outs) → HarmlessRun mem b s' cs

/-- What the reads of `a` deliver is the same without the calls on `b`. -/
def Independent (mem : ℕ → UInt8) (a b : ℕ) (s : Files) (cs : List Call) : Prop :=
  ∃ s' outs t' outs', s.run mem cs = .ok (s', outs) ∧
    s.run mem (cs.filter (·.fd ≠ b)) = .ok (t', outs') ∧
    outs.filter (·.fd = a) = outs'.filter (·.fd = a)

@[simp] theorem run_nil (mem : ℕ → UInt8) (s : Files) : s.run mem [] = .ok (s, []) := rfl

theorem run_cons {outs outs' : List Output} {cs : List Call} {s'' : Files}
    (hstep : s.step mem c = .ok (s', outs)) (hrun : s'.run mem cs = .ok (s'', outs')) :
    s.run mem (c :: cs) = .ok (s'', outs ++ outs') := by
  rw [run]
  exact bind_eq_ok.2 ⟨_, hstep, bind_eq_ok.2 ⟨_, hrun, rfl⟩⟩

theorem run_independent (hab : a ≠ b) : ∀ {cs : List Call} {s t : Files}, Agree b s t →
    int s.bytesdone = s.bytesdone → HarmlessRun mem b s cs →
    ∃ s' outs t' outs', s.run mem cs = .ok (s', outs) ∧
      t.run mem (cs.filter (·.fd ≠ b)) = .ok (t', outs') ∧
      outs.filter (·.fd = a) = outs'.filter (·.fd = a)
  | [], s, t, _, _, _ => ⟨s, [], t, [], rfl, rfl, rfl⟩
  | c :: cs, s, t, hagree, hint, hrun => by
    obtain ⟨s₁, outs₁, hstep, hdone, hint₁, hfd, houts⟩ := step_bytesdone mem c hint
    by_cases hc : c.fd = b
    · have hagree₁ : Agree b s₁ t :=
        ⟨((hdone.2 (hrun.1 hc)).trans hagree.1), fun i hi =>
          (hfd i (hc ▸ hi)).trans (hagree.2 i hi)⟩
      obtain ⟨s', outs, t', outs', hs, ht, heq⟩ := run_independent hab hagree₁ hint₁
        (hrun.2 _ _ hstep)
      refine ⟨s', outs₁ ++ outs, t', outs', run_cons hstep hs, ?_, ?_⟩
      · rw [List.filter_cons_of_neg (by simpa using hc)]
        exact ht
      · rw [List.filter_append, heq, List.filter_eq_nil_iff.2, List.nil_append]
        intro o ho
        simp only [houts o ho, hc, decide_eq_true_eq]
        exact fun h => hab h.symm
    · obtain ⟨s₂, t₁, outs₂, hs₁, ht₁, hagree₁⟩ := step_congr mem hagree hc
      obtain ⟨rfl, rfl⟩ := Prod.mk.inj (Except.ok.inj (hs₁.symm.trans hstep))
      obtain ⟨s', outs, t', outs', hs, ht, heq⟩ := run_independent hab hagree₁ hint₁
        (hrun.2 _ _ hstep)
      refine ⟨s', outs₂ ++ outs, t', outs₂ ++ outs', run_cons hstep hs, ?_, ?_⟩
      · rw [List.filter_cons_of_pos (by simpa using hc)]
        exact run_cons ht₁ ht
      · rw [List.filter_append, List.filter_append, heq]

/-! ## A call that is not harmless -/

/-- A read of all that is left returns how much that is. -/
theorem step_read_all (h0 : (s.fd a).size ≠ 0) (hn : 2 ^ 64 ≤ n + 1) : ∃ s' out,
    s.step mem (.read a n) = .ok (s', [out]) ∧ out.fd = a ∧
      out.ret = toU64 (int ((s.fd a).size - s.bytesdone)) := by
  have hleft : toU64 (int ((s.fd a).size - s.bytesdone)) < 2 ^ 64 := by
    rw [toU64]
    omega
  have hcount : toU64 (s.bytestoRead (s.fd a) n)
      = toU64 (int ((s.fd a).size - s.bytesdone)) := by
    rw [bytestoRead_eq, Nat.min_eq_right (by omega), int_toU64, int_int]
  rw [step, readFile_eq, if_neg h0]
  exact ⟨_, _, rfl, rfl, hcount⟩

/-- It tells different positions apart. -/
theorem left_injective {x d d' : ℤ} (hd : int d = d) (hd' : int d' = d')
    (h : toU64 (int (x - d)) = toU64 (int (x - d'))) : d = d' := by
  have hlt := int_lt (x - d)
  have hlt' := int_lt (x - d')
  have hge := le_int (x - d)
  have hge' := le_int (x - d')
  have hint : int (x - d) = int (x - d') := by
    unfold toU64 at h
    omega
  rw [int_eq_int_iff] at hint
  rw [← hd, ← hd', int_eq_int_iff]
  omega

/-- Followed by a read of `a`, a call on `b` can be seen unless it is harmless. -/
theorem independent_iff_harmless (hab : a ≠ b) (hint : int s.bytesdone = s.bytesdone)
    (h0 : (s.fd a).size ≠ 0) (hc : c.fd = b) :
    (∀ n < 2 ^ 64, Independent mem a b s [c, .read a n]) ↔ s.Harmless mem c := by
  constructor
  · intro hall
    obtain ⟨n, hn, hall'⟩ : ∃ n, 2 ^ 64 ≤ n + 1 ∧ Independent mem a b s [c, .read a n] :=
      ⟨2 ^ 64 - 1, by omega, hall _ (by omega)⟩
    obtain ⟨s', outs, t', outs', hs, ht, heq⟩ := hall'
    obtain ⟨s₁, outs₁, hstep, hdone, hint₁, hfd, houts⟩ :=
      step_bytesdone mem c hint
    have ha : s₁.fd a = s.fd a := hfd a (hc ▸ hab)
    obtain ⟨s₂, out, hread, hout, hret⟩ := step_read_all (s := s₁) (ha ▸ h0) hn
    obtain ⟨t₁, out', hread', hout', hret'⟩ := step_read_all h0 hn
    have hs' := run_cons hstep (run_cons hread (run_nil mem s₂))
    have ht' := run_cons hread' (run_nil mem t₁)
    have hfilter : [c, .read a n].filter (·.fd ≠ b) = [.read a n] := by
      simp [hc, show (Call.read a n).fd = a from rfl, hab]
    rw [hfilter] at ht
    obtain ⟨-, rfl⟩ := Prod.mk.inj (Except.ok.inj (hs'.symm.trans hs))
    obtain ⟨-, rfl⟩ := Prod.mk.inj (Except.ok.inj (ht'.symm.trans ht))
    have hnil : outs₁.filter (·.fd = a) = [] := by
      refine List.filter_eq_nil_iff.2 fun o ho => ?_
      simp only [houts o ho, hc, decide_eq_true_eq]
      exact fun h => hab h.symm
    rw [List.filter_append, hnil] at heq
    simp only [List.append_nil, List.nil_append, List.filter_cons, hout, hout', decide_true,
      if_true, List.filter_nil, List.cons.injEq, and_true] at heq
    rw [heq, hret', ha] at hret
    exact hdone.1 (left_injective hint₁ hint hret.symm)
  · intro hh n _
    refine run_independent hab ⟨rfl, fun _ _ => rfl⟩ hint ⟨fun _ => hh, fun s' outs _ => ?_⟩
    exact ⟨fun h => absurd h hab, fun _ _ _ => trivial⟩

theorem run_int : ∀ {cs : List Call} {s s' : Files} {outs : List Output},
    int s.bytesdone = s.bytesdone → s.run mem cs = .ok (s', outs) →
      int s'.bytesdone = s'.bytesdone
  | [], s, s', outs, hint, hrun => by
    obtain ⟨rfl, -⟩ := Prod.mk.inj (Except.ok.inj hrun)
    exact hint
  | c :: cs, s, s', outs, hint, hrun => by
    obtain ⟨s₁, outs₁, hstep, -, hint₁, -⟩ := step_bytesdone mem c hint
    obtain ⟨⟨s₂, outs₂⟩, hstep', hrun⟩ := bind_eq_ok.1 hrun
    obtain ⟨rfl, rfl⟩ := Prod.mk.inj (Except.ok.inj (hstep.symm.trans hstep'))
    obtain ⟨⟨s₃, outs₃⟩, hrest, hok⟩ := bind_eq_ok.1 hrun
    obtain ⟨rfl, -⟩ := Prod.mk.inj (Except.ok.inj hok)
    exact run_int hint₁ hrest

/-- Reads of `a` do not depend on the calls on `b` as long as these are harmless; the first one
that is not can be seen. -/
theorem reads_independent (mem : ℕ → UInt8) (fd : ℕ → File) (hab : a ≠ b) (cs : List Call)
    (hcs : HarmlessRun mem b ⟨0, fd⟩ cs) :
    Independent mem a b ⟨0, fd⟩ cs ∧ ∀ s outs, run mem ⟨0, fd⟩ cs = .ok (s, outs) →
      (s.fd a).size ≠ 0 → ∀ c, c.fd = b →
        ((∀ n < 2 ^ 64, Independent mem a b s [c, .read a n]) ↔ s.Harmless mem c) :=
  ⟨run_independent hab ⟨rfl, fun _ _ => rfl⟩ rfl hcs, fun _ _ hrun h0 _ hc =>
    independent_iff_harmless hab (run_int rfl hrun) h0 hc⟩

/-- Reading 5 bytes of one file moves the position in another. -/
theorem read_moves_other : ∃ s outs t outs',
    run (fun x => .ofNat (65 + x % 26)) ⟨0, fun i => ⟨[97], 10, 0x200000 + 1024 * i⟩⟩
      [.read 1 5, .read 0 5] = .ok (s, outs) ∧
    run (fun x => .ofNat (65 + x % 26)) ⟨0, fun i => ⟨[97], 10, 0x200000 + 1024 * i⟩⟩
      [.read 0 5] = .ok (t, outs') ∧
    (outs.filter (·.fd = 0)).map Output.buf = [[79, 80, 81, 82, 83, 0]] ∧
    (outs'.filter (·.fd = 0)).map Output.buf = [[75, 76, 77, 78, 79, 0]] :=
  ⟨_, _, _, _, rfl, rfl, by decide, by decide⟩

/-- A single byte is read from the other file. -/
theorem reads_independent_byte : Independent (fun x => .ofNat (65 + x % 26)) 0 1
    ⟨0, fun i => ⟨[97], 10, 0x200000 + 1024 * i⟩⟩ [.read 1 1, .read 0 5] := by
  refine (reads_independent _ _ (by decide) _ ?_).1
  refine ⟨fun _ => Or.inr ⟨by decide, by decide, Or.inl (by decide)⟩, fun s outs _ => ?_⟩
  exact ⟨fun h => absurd h (by decide), fun _ _ _ => trivial⟩

end Files

end Bgox
