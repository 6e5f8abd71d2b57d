import Bgox.Proofs.Reading

/-!
# `cat`

The system call 14 reads 60 bytes at a time until it gets fewer.  A call of `read_file` that finds a
0 moves the position to the byte before it, and from there the next one finds the same 0 as its
second byte and moves the position by nothing.  So the loop comes to its end only if it gets to the
last 59 bytes without meeting a 0 (`cat_ends_iff`).  If the file begins with a 0 the position goes
back into the header, up to some byte that is not 0: there is one, since the header begins with
the name.

Positions are counted from the header here, which is 512 bytes long.
-/

namespace Bgox

open Run (bind_eq_ok)

namespace Files

variable {mem : ℕ → UInt8} {s : Files} {f : File} {content : List UInt8} {i Q : ℕ}

/-- The string in a piece of memory ends with the piece or before a 0. -/
theorem length_takeWhile_bytesAt (mem : ℕ → UInt8) : ∀ n addr : ℕ,
    ∃ e, ((bytesAt mem n addr).takeWhile (· ≠ 0)).length = e ∧
      (∀ t < e, mem ((addr + t) % 2 ^ 64) ≠ 0) ∧
      (e = n ∨ e < n ∧ mem ((addr + e) % 2 ^ 64) = 0)
  | 0, addr => ⟨0, rfl, nofun, Or.inl rfl⟩
  | n + 1, addr => by
    rw [bytesAt_succ, List.takeWhile_cons]
    by_cases h0 : mem (addr % 2 ^ 64) = 0
    · exact ⟨0, by rw [if_neg (by rw [h0]; decide)]; rfl, nofun, Or.inr ⟨Nat.succ_pos n, h0⟩⟩
    · obtain ⟨e, he, hne, hend⟩ := length_takeWhile_bytesAt mem n (addr + 1)
      refine ⟨e + 1, by rw [if_pos (decide_eq_true h0), List.length_cons, he], fun t ht => ?_, ?_⟩
      · rcases t with _ | t
        · exact h0
        · rw [← Nat.add_assoc, Nat.add_right_comm]
          exact hne t (by omega)
      · rw [← Nat.add_assoc, Nat.add_right_comm]
        rcases hend with rfl | ⟨hlt, hzero⟩
        · exact Or.inl rfl
        · exact Or.inr ⟨by omega, hzero⟩

/-- There are 60 bytes to read, perhaps from a place in the header. -/
theorem bytestoRead_sixty (h : Stored mem f content) (hQ : s.bytesdone = Q - 512)
    (hle : Q + 60 ≤ 512 + content.length) : s.bytestoRead f 60 = 60 := by
  have hlt := h.lt
  have hleft : 60 ≤ toU64 (int (f.size - s.bytesdone)) := by
    rw [h.size, hQ, toU64, int, Int.bmod]
    split_ifs <;> omega
  rw [bytestoRead_eq, Nat.min_eq_left hleft]
  rfl

theorem fileaddr_header (h : Stored mem f content) (hQ : s.bytesdone = Q - 512)
    (hle : Q + 60 ≤ 512 + content.length) : s.fileaddr f = f.addr + Q := by
  have hfits := h.fits
  rw [fileaddr, hQ, toU64, Tarfs.skipSize]
  omega

/-- Such a call moves the position by one less than the number of bytes before the first 0. -/
theorem readFile_sixty (h : Stored mem (s.fd i) content) (hL : 0 < content.length)
    (hQ : s.bytesdone = Q - 512) (hle : Q + 60 ≤ 512 + content.length) :
    ∃ (e : ℕ) (buf : List UInt8),
      s.readFile mem i 60 = .ok (⟨Q + e - 1 - 512, s.fd⟩, buf, 60) ∧
      (∀ t < e, mem (((s.fd i).addr + Q + t) % 2 ^ 64) ≠ 0) ∧
      (e = 60 ∨ e < 60 ∧ mem (((s.fd i).addr + Q + e) % 2 ^ 64) = 0) := by
  obtain ⟨e, he, hne, hend⟩ := length_takeWhile_bytesAt mem 60 ((s.fd i).addr + Q)
  have hlt := h.lt
  have hcount := bytestoRead_sixty h hQ hle
  have haddr := fileaddr_header h hQ hle
  have hlen : s.len mem (s.fd i) 60 = e := by
    rw [len, hcount, haddr]
    exact he
  have hdone : int (s.bytesdone + (s.len mem (s.fd i) 60 - 1)) = Q + e - 1 - 512 := by
    rw [hlen, hQ, int, Int.bmod_eq_of_le] <;> omega
  refine ⟨e, bytesAt mem 60 ((s.fd i).addr + Q) ++ [0], ?_, hne, hend⟩
  rw [readFile_eq, if_neg (by rw [h.size]; omega), hdone, hcount, haddr]
  rfl

/-- At most 59 bytes are left. -/
theorem readFile_last (h : Stored mem (s.fd i) content) (hQ : s.bytesdone = Q - 512)
    (hlo : 512 ≤ Q) (hhi : Q ≤ 512 + content.length) (hlast : 512 + content.length < Q + 60) :
    ∃ s' buf n, s.readFile mem i 60 = .ok (s', buf, n) ∧ int n < 60 := by
  rw [readFile_eq]
  split_ifs
  · exact ⟨_, _, _, rfl, by decide⟩
  · refine ⟨_, _, _, rfl, ?_⟩
    rw [int_toU64, h.bytestoRead (P := Q - 512) (by omega) (by omega), int_of_lt] <;> omega

/-! ## The loop -/

/-- One more turn. -/
theorem catLoop_succ {s' : Files} {buf : List UInt8} {n fuel : ℕ} {bread : ℤ} (hb : 60 ≤ bread)
    (hread : s.readFile mem i 60 = .ok (s', buf, n)) {r : Option (Files × List (List UInt8))}
    (hrest : catLoop mem i fuel s' (int n) = .ok r) :
    catLoop mem i (fuel + 1) s bread = .ok (r.map fun x => (x.1, buf :: x.2)) := by
  rw [catLoop, if_pos hb]
  exact bind_eq_ok.2 ⟨_, hread, bind_eq_ok.2 ⟨_, hrest, rfl⟩⟩

/-- There is a 0 before the last 58 bytes, and more than 59 are left. -/
structure Sticks (mem : ℕ → UInt8) (f : File) (content : List UInt8) (Q : ℕ) : Prop where
  left : Q + 60 ≤ 512 + content.length
  zero : ∃ z, Q ≤ z ∧ z + 59 ≤ 512 + content.length ∧ mem ((f.addr + z) % 2 ^ 64) = 0

theorem catLoop_sticks (hL : 0 < content.length) : ∀ (fuel : ℕ) {s : Files} {Q : ℕ} {bread : ℤ},
    Stored mem (s.fd i) content → s.bytesdone = Q - 512 → Sticks mem (s.fd i) content Q →
    60 ≤ bread → catLoop mem i fuel s bread = .ok none
  | 0, s, Q, bread, _, _, _, _ => rfl
  | fuel + 1, s, Q, bread, h, hQ, hst, hb => by
    obtain ⟨e, buf, hread, hne, hend⟩ := readFile_sixty h hL hQ hst.left
    obtain ⟨z, hQz, hz, hzero⟩ := hst.zero
    have hfits := h.fits
    -- the header begins with the name, so the position stays in the member
    have hpos : 1 ≤ Q + e := by
      by_contra hcon
      have hQe : Q = 0 ∧ e = 0 := by omega
      obtain ⟨rfl, rfl⟩ := hQe
      rcases hend with hend | ⟨-, hend⟩
      · cases hend
      · rw [Nat.mod_eq_of_lt (by omega)] at hend
        exact h.name hend
    have hnext : Sticks mem (s.fd i) content (Q + e - 1) := by
      rcases hend with rfl | ⟨hlt, hend⟩
      · have hz' : Q + 60 ≤ z := by
          by_contra hcon
          refine hne (z - Q) (by omega) ?_
          rw [Nat.add_assoc, Nat.add_sub_of_le hQz]
          exact hzero
        exact ⟨by omega, z, by omega, hz, hzero⟩
      · have hz' : Q + e ≤ z := by
          by_contra hcon
          refine hne (z - Q) (by omega) ?_
          rw [Nat.add_assoc, Nat.add_sub_of_le hQz]
          exact hzero
        exact ⟨by omega, Q + e, by omega, by omega, by rw [← Nat.add_assoc]; exact hend⟩
    refine catLoop_succ hb hread (catLoop_sticks hL fuel (Q := Q + e - 1) h ?_ hnext (by decide))
    dsimp only
    omega

/-- Without such a 0 the position gets to the last 59 bytes. -/
theorem catLoop_ends {s : Files} {Q : ℕ} (bread : ℤ) (h : Stored mem (s.fd i) content)
    (hQ : s.bytesdone = Q - 512) (hlo : 512 ≤ Q) (hhi : Q ≤ 512 + content.length)
    (hcond : 512 + content.length < Q + 60 ∨
      ∀ z, Q ≤ z → z + 59 ≤ 512 + content.length → mem (((s.fd i).addr + z) % 2 ^ 64) ≠ 0) :
    ∃ fuel r, catLoop mem i fuel s bread = .ok (some r) := by
  by_cases hb : 60 ≤ bread
  · induction hk : 512 + content.length - Q using Nat.strongRecOn generalizing Q s bread with
    | ind k ih =>
      by_cases hlast : 512 + content.length < Q + 60
      · obtain ⟨s', buf, n, hread, hn⟩ := readFile_last h hQ hlo hhi hlast
        refine ⟨2, _, catLoop_succ hb hread (r := some (s', [])) ?_⟩
        rw [catLoop, if_neg (by omega)]
      · have hnz := hcond.resolve_left hlast
        have hL : 0 < content.length := by omega
        obtain ⟨e, buf, hread, hne, hend⟩ := readFile_sixty h hL hQ (by omega)
        have he : 2 ≤ e ∧ Q + e - 1 ≤ 512 + content.length := by
          rcases hend with rfl | ⟨hlt, hend⟩
          · omega
          · by_contra hcon
            refine hnz (Q + e) (by omega) (by omega) ?_
            rw [← Nat.add_assoc]
            exact hend
        obtain ⟨fuel, r, hrest⟩ := ih (512 + content.length - (Q + e - 1)) (by omega)
          (s := ⟨Q + e - 1 - 512, s.fd⟩) (Q := Q + e - 1) (int (60 : ℕ)) h (by dsimp only; omega)
          (by omega) he.2 (Or.inr fun z hz => hnz z (by omega)) (by decide) rfl
        exact ⟨fuel + 1, _, catLoop_succ hb hread hrest⟩
  · exact ⟨1, _, by rw [catLoop, if_neg hb]⟩

theorem catLoop_ends_iff {d : ℕ} (h : Stored mem (s.fd i) content) (hd : s.bytesdone = d)
    (hle : d ≤ content.length) :
    (∃ fuel r, catLoop mem i fuel s 2048 = .ok (some r)) ↔
      content.length < d + 60 ∨ ∀ z, d ≤ z → z + 59 ≤ content.length → content[z]? ≠ some 0 := by
  have hQ : s.bytesdone = (d + 512 : ℕ) - 512 := by omega
  have hbyte : ∀ z, 512 ≤ z → z < 512 + content.length →
      (mem (((s.fd i).addr + z) % 2 ^ 64) = 0 ↔ content[z - 512]? = some 0) := by
    intro z hlo hhi
    rw [List.getElem?_eq_getElem (by omega), Option.some.injEq, h.getElem, Nat.add_assoc,
      Nat.add_sub_of_le hlo]
  constructor
  · rintro ⟨fuel, r, hr⟩
    by_contra hcon
    push Not at hcon
    obtain ⟨hleft, z, hz, hz', hzero⟩ := hcon
    have hst : Sticks mem (s.fd i) content (d + 512) :=
      ⟨by omega, z + 512, by omega, by omega,
        (hbyte _ (by omega) (by omega)).2 (by simpa using hzero)⟩
    have hL : 0 < content.length := by omega
    rw [catLoop_sticks hL fuel h hQ hst (by decide)] at hr
    cases hr
  · intro hcond
    refine catLoop_ends 2048 h hQ (by omega) (by omega)
      (hcond.imp (by omega) fun hnz z hz hz' => ?_)
    rw [Ne, hbyte z (by omega) (by omega)]
    exact hnz (z - 512) (by omega) (by omega)

/-! ## The system call -/

/-- `cat` on a file, from the position `d` on, comes to its end exactly if fewer than 60 bytes are
left or there is no 0 among them but for the last 58. -/
theorem cat_ends_iff {fs : Tarfs} {filename : List UInt8} {d : ℕ}
    (hopen : fs.openFile filename = some f) (h : Stored mem f content)
    (hd : s.bytesdone = d) (hle : d ≤ content.length) :
    (∃ fuel r, cat mem fs s i fuel filename = .ok (some r)) ↔
      content.length < d + 60 ∨ ∀ z, d ≤ z → z + 59 ≤ content.length → content[z]? ≠ some 0 := by
  have hstored : Stored mem (Files.fd ⟨s.bytesdone, Function.update s.fd i f⟩ i) content := by
    simpa using h
  rw [← catLoop_ends_iff hstored hd hle]
  simp only [cat, hopen]
  constructor
  · rintro ⟨fuel, r, hr⟩
    obtain ⟨r', hloop, hr⟩ := bind_eq_ok.1 hr
    obtain ⟨x, hx, -⟩ := Option.map_eq_some_iff.1 (Except.ok.inj hr)
    exact ⟨fuel, x, hx ▸ hloop⟩
  · rintro ⟨fuel, r, hr⟩
    exact ⟨fuel, _, bind_eq_ok.2 ⟨_, hr, rfl⟩⟩

theorem cat_ends_letters : ∃ fuel r, cat letters ⟨[⟨[97], 10, 0x200000, TYPE_FILE⟩], 1⟩
    ⟨0, fun _ => ⟨[], 0, 0⟩⟩ 0 fuel [97] = .ok (some r) :=
  (cat_ends_iff (d := 0) (f := tenLetters) rfl tenLetters_stored rfl (by decide)).2
    (Or.inl (by decide))

/-- Memory with a single 0 in it, as the second byte of a file at `0x200000`. -/
def oneZero (x : ℕ) : UInt8 := if x = 0x200201 then 0 else 65

/-- A file of 60 bytes, the second of which is 0, is printed for ever. -/
theorem cat_never_ends : ¬ ∃ fuel r, cat oneZero ⟨[⟨[97], 60, 0x200000, TYPE_FILE⟩], 1⟩
    ⟨0, fun _ => ⟨[], 0, 0⟩⟩ 0 fuel [97] = .ok (some r) := by
  rintro ⟨fuel, r, hr⟩
  have hlen := length_bytesAt oneZero 60 0x200200
  have hstored : Stored oneZero ⟨[97], 60, 0x200000⟩ (bytesAt oneZero 60 0x200200) :=
    ⟨by rw [hlen]; rfl, by rw [hlen]; decide, by rw [hlen]; decide, by rw [hlen], by decide⟩
  have hst : Sticks oneZero ⟨[97], 60, 0x200000⟩ (bytesAt oneZero 60 0x200200) 512 :=
    ⟨by rw [hlen], 513, by decide, by rw [hlen], by decide⟩
  have hloop := catLoop_sticks (by rw [hlen]; decide) fuel
    (s := ⟨0, Function.update (fun _ => ⟨[], 0, 0⟩) 0 ⟨[97], 60, 0x200000⟩⟩) (i := 0)
    hstored rfl hst (show (60 : ℤ) ≤ 2048 by decide)
  obtain ⟨r', hr', hr⟩ := bind_eq_ok.1 hr
  obtain rfl := Except.ok.inj (hloop.symm.trans hr')
  cases hr

end Files

end Bgox
