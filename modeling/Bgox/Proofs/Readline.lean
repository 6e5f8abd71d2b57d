import Bgox.Proofs.Reading

/-!
# Reading a file line by line

`readline` copies what is left of a line, as far as it fits in the buffer, and passes over the
newline that ends it.  A call takes away the front of what is left of the file (`Taken`): the string
it delivers, and a newline where it has stopped at one.  So the calls of a run take the file apart,
and nothing of it is lost or delivered twice (`readline_partitions`).
-/

namespace Bgox

namespace Files

variable {mem : ℕ → UInt8} {s : Files} {content : List UInt8} {i n P : ℕ}

/-- The string that is delivered, with the newline after it if it has been passed over. -/
def ReadLine.text (r : ReadLine) : List UInt8 :=
  r.buf.takeWhile (· ≠ 0) ++ if r.newline then [10] else []

/-! ## The loop -/

/-- What the loop makes of the bytes it may read: they begin with the string, and it ends before
them only at a newline. -/
structure Taken (bytes t : List UInt8) (newline : Bool) : Prop where
  split : ∃ rest, bytes = t ++ (if newline then [10] else []) ++ rest
  line : 10 ∉ t
  all : newline = false → t = bytes

theorem taken_lineLoop : ∀ bytes : List UInt8, Taken bytes (lineLoop bytes).1 (lineLoop bytes).2
  | [] => ⟨⟨[], by simp [lineLoop]⟩, by simp [lineLoop], by simp [lineLoop]⟩
  | c :: rest => by
    by_cases hc : c = 10
    · refine ⟨⟨rest, ?_⟩, ?_, ?_⟩ <;> simp [lineLoop, hc]
    · obtain ⟨⟨rest', hsplit⟩, hline, hall⟩ := taken_lineLoop rest
      refine ⟨⟨rest', ?_⟩, ?_, fun h => ?_⟩
      · simp only [lineLoop, if_neg hc]
        rw [List.append_assoc, List.cons_append, ← List.append_assoc, ← hsplit]
      · simp only [lineLoop, if_neg hc, List.mem_cons, not_or]
        exact ⟨Ne.symm hc, hline⟩
      · simp only [lineLoop, if_neg hc] at h ⊢
        rw [hall h]

theorem Taken.length_le {bytes t : List UInt8} {newline : Bool} (h : Taken bytes t newline) :
    t.length + newline.toNat ≤ bytes.length := by
  obtain ⟨rest, hsplit⟩ := h.split
  have hlen := congrArg List.length hsplit
  cases newline <;> simp at hlen ⊢ <;> omega

/-- Something is taken away if there is something. -/
theorem Taken.pos {bytes t : List UInt8} {newline : Bool} (h : Taken bytes t newline)
    (hpos : 0 < bytes.length) : 1 ≤ t.length + newline.toNat := by
  cases newline with
  | false =>
    rw [h.all rfl]
    exact hpos
  | true => simp

/-- What is left of the file after a call. -/
theorem Taken.drop {t : List UInt8} {newline : Bool}
    (h : Taken ((content.drop P).take n) t newline) :
    content.drop P = t ++ (if newline then [10] else []) ++
      content.drop (P + (t.length + newline.toNat)) := by
  obtain ⟨rest, hsplit⟩ := h.split
  have hlen : (t ++ if newline then [10] else []).length = t.length + newline.toNat := by
    cases newline <;> simp
  have hdrop : content.drop P
      = t ++ (if newline then [10] else []) ++ (rest ++ (content.drop P).drop n) := by
    rw [← List.append_assoc, ← hsplit, List.take_append_drop]
  rw [← List.drop_drop, ← hlen, hdrop, List.drop_left]

/-! ## One call -/

theorem readline_stored (h : Stored mem (s.fd i) content) (hnul : 0 ∉ content)
    (hP : s.bytesdone = P) (hlt : P < content.length) (n : ℕ) :
    ∃ t newline, Taken ((content.drop P).take n) t newline ∧ 0 ∉ t ∧ s.readline mem i n
      = .ok (⟨(P + (t.length + newline.toNat) : ℕ), s.fd⟩, ⟨t ++ [0], newline, t.length⟩) := by
  have hL := h.lt
  have hsize : ¬ ((s.fd i).size = 0 ∨ int (s.bytesdone - (s.fd i).size) = 0) := by
    rw [h.size, hP, int, Int.bmod_eq_of_le] <;> omega
  have hbytes : bytesAt mem (s.bytestoRead (s.fd i) n).toNat (s.fileaddr (s.fd i))
      = (content.drop P).take n := by
    rw [h.bytestoRead hP (Nat.le_of_lt hlt), h.fileaddr hP hlt, Int.toNat_natCast,
      h.bytesAt_eq (by omega), ← List.length_drop, ← List.take_eq_take_min]
  have htaken := taken_lineLoop ((content.drop P).take n)
  rcases hloop : lineLoop ((content.drop P).take n) with ⟨t, newline⟩
  rw [hloop] at htaken
  dsimp only at htaken
  have hle := htaken.length_le
  rw [List.length_take, List.length_drop] at hle
  have hzero : 0 ∉ t := by
    obtain ⟨rest, hsplit⟩ := htaken.split
    intro hmem
    refine hnul (List.mem_of_mem_drop (i := P) (List.mem_of_mem_take (i := n) ?_))
    rw [hsplit]
    simp [hmem]
  refine ⟨t, newline, htaken, hzero, ?_⟩
  rw [readline, if_neg hsize, hbytes, hloop]
  have hlen := strLen_append hzero []
  cases newline with
  | false =>
    simp only [Bool.toNat_false, Nat.add_zero] at hle ⊢
    rw [if_neg Bool.false_ne_true, hlen, hP]
    simp only [bind, Except.bind, pure, Except.pure]
    rw [int_of_lt (by omega) (by omega), Nat.cast_add]
  | true =>
    simp only [Bool.toNat_true] at hle ⊢
    rw [if_pos trivial, hlen, hP, int_of_lt (x := P + 1) (by omega) (by omega)]
    simp only [bind, Except.bind, pure, Except.pure]
    rw [int_of_lt (by omega) (by omega)]
    push_cast
    rw [add_assoc, add_comm (1 : ℤ)]

/-! ## Runs -/

theorem readlines_cons {s' s'' : Files} {line : ReadLine} {lines : List ReadLine} {ns : List ℕ}
    (h : s.readline mem i n = .ok (s', line)) (hs : readlines mem i s' ns = .ok (s'', lines)) :
    readlines mem i s (n :: ns) = .ok (s'', line :: lines) := by
  rw [readlines, h]
  simp only [bind, Except.bind, hs]
  rfl

theorem ReadLine.text_eq {t : List UInt8} (ht : 0 ∉ t) (newline : Bool) (ret : ℕ) :
    ReadLine.text ⟨t ++ [0], newline, ret⟩ = t ++ if newline then [10] else [] := by
  have hall : ∀ c ∈ t, (decide (c ≠ 0)) = true := fun c hc => by
    simpa using fun h0 : c = 0 => ht (h0 ▸ hc)
  rw [text, List.takeWhile_append_of_pos hall]
  simp

/-- From any place, the calls come to the end, and deliver what was left. -/
theorem exists_readlines {fd : ℕ → File} (h : Stored mem (fd i) content) (hnul : 0 ∉ content) :
    ∀ (m : ℕ) {P : ℕ} (n : ℕ → ℕ), (∀ j, 1 ≤ n j) → P ≤ content.length →
      content.length - P ≤ m → ∃ k ≤ m, ∃ lines,
        readlines mem i ⟨P, fd⟩ ((List.range k).map n) = .ok (⟨content.length, fd⟩, lines) ∧
        lines.flatMap ReadLine.text = content.drop P
  | m, P, n, hn, hle, hm => by
    rcases Nat.lt_or_eq_of_le hle with hlt | rfl
    · obtain ⟨t, newline, htaken, ht, hcall⟩ :=
        readline_stored (s := ⟨P, fd⟩) h hnul rfl hlt (n 0)
      have hpos := htaken.pos (by
        have := hn 0
        rw [List.length_take, List.length_drop]
        omega)
      have hlen := htaken.length_le
      rw [List.length_take, List.length_drop] at hlen
      rcases m with _ | m
      · omega
      · obtain ⟨k, hk, lines, hrun, htext⟩ := exists_readlines h hnul m (fun j => n (j + 1))
          (fun j => hn (j + 1)) (P := P + (t.length + newline.toNat)) (by omega) (by omega)
        refine ⟨k + 1, by omega, ⟨t ++ [0], newline, t.length⟩ :: lines, ?_, ?_⟩
        · rw [List.range_succ_eq_map, List.map_cons, List.map_map]
          exact readlines_cons hcall hrun
        · rw [List.flatMap_cons, htext, ReadLine.text_eq ht, ← htaken.drop]
    · exact ⟨0, Nat.zero_le _, [], rfl, by simp⟩

/-- Every call goes on by the string it delivers, and by one more if it stops at a newline, but
never past the end; and the calls from the start of the file on take it apart. -/
theorem readline_partitions {fd : ℕ → File} (h : Stored mem (fd i) content) (hnul : 0 ∉ content) :
    (∀ P n : ℕ, P < content.length → 1 ≤ n → ∃ t newline,
        readline mem ⟨P, fd⟩ i n = .ok (⟨(P + (t.length + newline.toNat) : ℕ), fd⟩,
          ⟨t ++ [0], newline, t.length⟩) ∧
        0 ∉ t ∧ Taken ((content.drop P).take n) t newline ∧
        1 ≤ t.length + newline.toNat ∧ P + (t.length + newline.toNat) ≤ content.length) ∧
      ∀ n : ℕ → ℕ, (∀ j, 1 ≤ n j) → ∃ k ≤ content.length, ∃ lines,
        readlines mem i ⟨0, fd⟩ ((List.range k).map n) = .ok (⟨content.length, fd⟩, lines) ∧
        lines.flatMap ReadLine.text = content := by
  refine ⟨fun P n hlt hn => ?_, fun n hn => ?_⟩
  · obtain ⟨t, newline, htaken, ht, hcall⟩ := readline_stored (s := ⟨P, fd⟩) h hnul rfl hlt n
    have hlen := htaken.length_le
    rw [List.length_take, List.length_drop] at hlen
    refine ⟨t, newline, hcall, ht, htaken, htaken.pos ?_, by omega⟩
    rw [List.length_take, List.length_drop]
    omega
  · simpa using exists_readlines h hnul content.length (P := 0) n hn (Nat.zero_le _) (by omega)

/-- Memory with two newlines in it. -/
def newlines (x : ℕ) : UInt8 := if x = 0x200202 ∨ x = 0x200203 then 10 else letters x

def newlinesFd (_ : ℕ) : File := ⟨[97], 5, 0x200000⟩

theorem newlines_stored : Stored newlines (newlinesFd 0) [75, 76, 10, 10, 79] where
  size := rfl
  lt := by decide
  fits := by decide
  data := by decide
  name := by decide

/-- It is read with buffers of 2 bytes. -/
theorem readline_partitions_two : ∃ k lines,
    readlines newlines 0 ⟨0, newlinesFd⟩ ((List.range k).map fun _ => 2)
        = .ok (⟨5, newlinesFd⟩, lines) ∧
      lines.flatMap ReadLine.text = [75, 76, 10, 10, 79] := by
  obtain ⟨k, -, lines, hrun, htext⟩ := (readline_partitions newlines_stored (by decide)).2
    (fun _ => 2) (fun _ => by decide)
  exact ⟨k, lines, hrun, htext⟩

end Files

end Bgox
