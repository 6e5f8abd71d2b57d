import Bgox.Proofs.Arrays

/-!
# Rows of a table

`str_split_delim` cuts a string in front of every delimiter (`pieces`) and stores the pieces into
rows of 100 bytes, one after the other (`writeRows`).  The first 100 bytes of every row stay, and
all of the last one (`row_has`); what goes beyond is overwritten by the next row.
-/

namespace Bgox

open Run (bind_eq_ok)

/-- A string, cut in front of every `delim`. -/
def pieces (delim : UInt8) : List UInt8 → List (List UInt8)
  | [] => [[]]
  | c :: s =>
    if c = delim then [] :: (pieces delim s).modifyHead (c :: ·)
    else (pieces delim s).modifyHead (c :: ·)

variable {n ctr i : ℕ} {delim : UInt8} {s p : List UInt8} {ps : List (List UInt8)}
  {out out' : Buffer UInt8 n}

theorem pieces_ne_nil (delim : UInt8) : ∀ s, pieces delim s ≠ []
  | [] => by simp [pieces]
  | c :: s => by
    have := pieces_ne_nil delim s
    unfold pieces
    split_ifs <;> simp [this]

theorem pieces_of_notMem : ∀ {s : List UInt8}, delim ∉ s → pieces delim s = [s]
  | [], _ => rfl
  | c :: s, h => by
    simp only [List.mem_cons, not_or] at h
    rw [pieces, if_neg (Ne.symm h.1), pieces_of_notMem h.2]
    rfl

theorem pieces_append : ∀ {s : List UInt8}, delim ∉ s → ∀ t,
    pieces delim (s ++ delim :: t) = s :: (pieces delim t).modifyHead (delim :: ·)
  | [], _, t => by simp [pieces]
  | c :: s, h, t => by
    simp only [List.mem_cons, not_or] at h
    rw [List.cons_append, pieces, if_neg (Ne.symm h.1), pieces_append h.2]
    rfl

theorem length_pieces (delim : UInt8) : ∀ s, (pieces delim s).length = s.count delim + 1
  | [] => rfl
  | c :: s => by
    unfold pieces
    split_ifs with hc
    · simp [hc, length_pieces]
    · simp [hc, length_pieces]

/-- Nothing is lost. -/
theorem flatten_pieces (delim : UInt8) : ∀ s, (pieces delim s).flatten = s
  | [] => rfl
  | c :: s => by
    obtain ⟨p, ps, hps⟩ := List.exists_cons_of_ne_nil (pieces_ne_nil delim s)
    have hrest := flatten_pieces delim s
    rw [hps, List.flatten_cons] at hrest
    unfold pieces
    split_ifs <;> simp [hps, hrest]

theorem pieces_sublist (h : p ∈ pieces delim s) : p.Sublist s := by
  have := List.sublist_flatten_of_mem h
  rwa [flatten_pieces] at this

theorem pieces_head? (delim : UInt8) : ∀ s, (pieces delim s).head? = some (s.takeWhile (· ≠ delim))
  | [] => rfl
  | c :: s => by
    obtain ⟨p, ps, hps⟩ := List.exists_cons_of_ne_nil (pieces_ne_nil delim s)
    have hrest := pieces_head? delim s
    rw [hps, List.head?_cons, Option.some.injEq] at hrest
    unfold pieces
    split_ifs with hc
    · simp [hc]
    · simp [hps, hc, hrest]

/-! ## The rows -/

/-- The pieces are stored in the rows from `ctr` on. -/
def writeRows : ℕ → List (List UInt8) → Buffer UInt8 n → Except Trap (Buffer UInt8 n)
  | _, [], out => .ok out
  | ctr, p :: ps, out => do
    let out ← out.write .wild (ctr * FMT_LEN) (p ++ [0])
    writeRows (ctr + 1) ps out

/-- What is copied for the piece that starts at the end of `front`. -/
theorem strSubstr_piece (front cur rest : List UInt8) (k : ℕ) :
    strSubstr (front ++ cur ++ rest) front.length ((front.length + cur.length : ℕ) - 1) out k
      = out.write .wild k (cur ++ [0]) := by
  rw [List.append_assoc]
  exact strSubstr_eq out rfl (by omega)

theorem splitLoop_eq (delim : UInt8) (t : List UInt8) : ∀ (rest front cur : List UInt8) (ctr : ℕ)
    (out : Buffer UInt8 n), 0 ∉ rest →
    splitLoop (front ++ cur ++ (rest ++ 0 :: t)) delim (rest ++ 0 :: t)
        (front.length + cur.length) front.length ctr out
      = do
        let out ← writeRows ctr ((pieces delim rest).modifyHead (cur ++ ·)) out
        return (out, ctr + (pieces delim rest).length)
  | [], front, cur, ctr, out, _ => by
    simp only [List.nil_append, splitLoop, if_pos, strSubstr_piece, pieces, List.modifyHead,
      writeRows, List.append_nil, List.length_singleton]
    rcases out.write Trap.wild (ctr * FMT_LEN) (cur ++ [0]) with _ | _ <;> rfl
  | c :: rest, front, cur, ctr, out, h => by
    simp only [List.mem_cons, not_or] at h
    have hc : ¬ c = 0 := fun h0 => h.1 h0.symm
    rw [List.cons_append, splitLoop, if_neg hc]
    obtain ⟨p, ps, hps⟩ := List.exists_cons_of_ne_nil (pieces_ne_nil delim rest)
    by_cases hd : c = delim
    · have hnext := splitLoop_eq delim t rest (front ++ cur) [c] (ctr + 1)
      simp only [List.append_assoc, List.singleton_append, List.length_append, hps,
        List.modifyHead_cons, List.length_cons] at hnext
      rw [if_pos hd, strSubstr_piece]
      simp only [pieces, if_pos hd, hps, List.modifyHead_cons, writeRows, List.append_nil,
        List.length_cons, List.append_assoc]
      rcases out.write Trap.wild (ctr * FMT_LEN) (cur ++ [0]) with _ | out₁
      · rfl
      · have hout := hnext out₁ h.2
        rw [show ctr + 1 + (ps.length + 1) = ctr + (ps.length + 1 + 1) by omega] at hout
        exact hout
    · have hnext := splitLoop_eq delim t rest front (cur ++ [c]) ctr out h.2
      simp only [List.append_assoc, List.singleton_append, List.length_append, hps,
        List.modifyHead_cons, List.length_cons] at hnext
      rw [if_neg hd]
      simp only [pieces, if_neg hd, hps, List.modifyHead_cons, List.length_cons, List.append_assoc]
      exact hnext

theorem strSplitDelim_eq (hs : 0 ∉ s) (t : List UInt8) (out : Buffer UInt8 n) :
    strSplitDelim (s ++ 0 :: t) delim out = do
      let out ← writeRows 0 (pieces delim s) out
      return (out, (pieces delim s).length) := by
  have hloop := splitLoop_eq delim t s [] [] 0 out hs
  obtain ⟨p, ps, hps⟩ := List.exists_cons_of_ne_nil (pieces_ne_nil delim s)
  simpa [hps, strSplitDelim] using hloop

/-! ## What is in the table -/

theorem writeRows_ok : ∀ {ps : List (List UInt8)} {ctr : ℕ} (out : Buffer UInt8 n),
    (∀ i p, ps[i]? = some p → (ctr + i) * FMT_LEN + p.length < n) →
    ∃ out', writeRows ctr ps out = .ok out'
  | [], _, out, _ => ⟨out, rfl⟩
  | p :: ps, ctr, out, h => by
    have hp := h 0 p rfl
    obtain ⟨out₁, hwrite, -⟩ := Buffer.write_ok Trap.wild out (k := ctr * FMT_LEN)
      (w := p ++ [0]) (by simp at hp ⊢; omega)
    have hnext : ∀ i p, ps[i]? = some p → (ctr + 1 + i) * FMT_LEN + p.length < n := by
      intro i p hi
      rw [Nat.add_assoc, Nat.add_comm 1]
      exact h (i + 1) p hi
    obtain ⟨out', hrows⟩ := writeRows_ok out₁ hnext
    refine ⟨out', ?_⟩
    rw [writeRows, hwrite]
    exact hrows

theorem writeRows_error : ∀ {ps : List (List UInt8)} {ctr i : ℕ} {out : Buffer UInt8 n},
    ps[i]? = some p → n ≤ (ctr + i) * FMT_LEN + p.length →
    writeRows ctr ps out = .error .wild
  | [], _, _, _, hi, _ => by simp at hi
  | q :: ps, ctr, i, out, hi, hn => by
    rw [writeRows]
    by_cases hq : ctr * FMT_LEN + q.length < n
    · obtain ⟨out₁, hwrite, -⟩ := Buffer.write_ok Trap.wild out (k := ctr * FMT_LEN)
        (w := q ++ [0]) (by simp; omega)
      rw [hwrite]
      rcases i with _ | i
      · simp only [List.getElem?_cons_zero, Option.some.injEq, Nat.add_zero] at hi hn
        subst hi
        omega
      · refine writeRows_error (i := i) hi ?_
        rwa [Nat.add_assoc, Nat.add_comm 1]
    · rw [Buffer.write_error Trap.wild out (by simp) (by simp; omega)]
      rfl

/-- The rows before are left alone. -/
theorem writeRows_frame : ∀ {ps : List (List UInt8)} {ctr : ℕ} {out : Buffer UInt8 n},
    writeRows ctr ps out = .ok out' → ∀ j < ctr * FMT_LEN, out'.cells[j]? = out.cells[j]?
  | [], _, _, h, _, _ => by
    obtain rfl := Except.ok.inj h
    rfl
  | p :: ps, ctr, out, h, j, hj => by
    obtain ⟨out₁, hwrite, hrows⟩ := bind_eq_ok.1 h
    rw [writeRows_frame hrows j (by rw [Nat.succ_mul]; omega),
      (Buffer.written_of_write hwrite).frame j (Or.inl hj)]

/-- The first 100 bytes of a row stay, and all of the last one. -/
theorem row_has : ∀ {ps : List (List UInt8)} {ctr i : ℕ} {out : Buffer UInt8 n},
    writeRows ctr ps out = .ok out' → ps[i]? = some p →
    out'.Has ((ctr + i) * FMT_LEN) ((p ++ [0]).take FMT_LEN) ∧
      (i + 1 = ps.length → out'.Has ((ctr + i) * FMT_LEN) (p ++ [0]))
  | [], _, _, _, _, hi => by simp at hi
  | q :: ps, ctr, i, out, h, hi => by
    obtain ⟨out₁, hwrite, hrows⟩ := bind_eq_ok.1 h
    have hw := Buffer.written_of_write hwrite
    rcases i with _ | i
    · simp only [List.getElem?_cons_zero, Option.some.injEq] at hi
      subst hi
      rw [Nat.add_zero]
      refine ⟨fun j hj => ?_, fun hlast => ?_⟩
      · rw [List.length_take] at hj
        rw [writeRows_frame hrows _ (by rw [Nat.succ_mul]; omega)]
        exact hw.has.take FMT_LEN j (by rw [List.length_take]; exact hj)
      · obtain rfl : ps = [] := List.eq_nil_of_length_eq_zero (by simpa using hlast.symm)
        obtain rfl := Except.ok.inj hrows
        exact hw.has
    · have hrest := row_has hrows (i := i) hi
      rw [show ctr + 1 + i = ctr + (i + 1) by omega] at hrest
      exact ⟨hrest.1, fun hlast => hrest.2 (by simpa using hlast)⟩

theorem row_has_of_lt (h : writeRows ctr ps out = .ok out') (hi : ps[i]? = some p)
    (hp : p.length < FMT_LEN ∨ i + 1 = ps.length) :
    out'.Has ((ctr + i) * FMT_LEN) (p ++ [0]) := by
  obtain ⟨htake, hlast⟩ := row_has h hi
  rcases hp with hlt | heq
  · rwa [List.take_of_length_le (by simp; omega)] at htake
  · exact hlast heq

end Bgox
