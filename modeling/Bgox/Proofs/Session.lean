import Bgox.Proofs.Output
import Bgox.Proofs.Shell

/-!
# A session with the shell

Before `main` calls `fork` it prints the empty string, and to print it is to store a byte outside of
`sub`.  So whatever is typed, in any number of lines, there is no `fork` without such a store, from
`main` itself or from its `printf`: a session in which all stores are inside of the arrays is one in
which every line is passed over for the newline at its start (`session_empty`).
-/

namespace Bgox

open Keyboard (chars)
open Run (bind_eq_ok)

/-- There is no room in `input` for a line that is too long. -/
theorem oxtermMain_ne_tooLong (line : List UInt8) : oxtermMain line ≠ .ok .tooLong := by
  intro h
  obtain ⟨input, -, h⟩ := bind_eq_ok.1 h
  split_ifs at h with hnewline
  · cases h
  · obtain ⟨len, hlen, h⟩ := bind_eq_ok.1 h
    have hshort : len < COMM_LEN := input.length_cells ▸ strLen_lt hlen
    rw [if_neg (Nat.not_le.2 hshort)] at h
    obtain ⟨delim, -, h⟩ := bind_eq_ok.1 h
    obtain ⟨cmd, -, h⟩ := bind_eq_ok.1 h
    obtain ⟨arg, -, h⟩ := bind_eq_ok.1 h
    obtain ⟨cmd', -, h⟩ := bind_eq_ok.1 h
    obtain ⟨arg', -, h⟩ := bind_eq_ok.1 h
    cases h

theorem Stdout.printf_empty (o : Stdout) :
    o.printf (chars ['%', 's'] ++ [0]) [.ptr [0]] = .error .wild := by
  obtain ⟨b, hbuf, hb⟩ := printf_single (d := .str [] []) (show 0 ∉ [] by simp) (by decide)
    o.writeBuf o.istr []
  exact printf_error hbuf hb

/-- A turn that goes well. -/
theorem shellTurn_empty {o : Stdout} {s s' : Keyboard} {codes : List ℕ} {parsed : Parsed}
    (h : shellTurn o s codes = .ok (parsed, s')) : parsed = .empty := by
  obtain ⟨s₁, -, h⟩ := bind_eq_ok.1 h
  obtain ⟨⟨line, s₂⟩, -, h⟩ := bind_eq_ok.1 h
  obtain ⟨p, hp, h⟩ := bind_eq_ok.1 h
  cases p with
  | empty =>
    cases h
    rfl
  | tooLong => exact absurd hp (oxtermMain_ne_tooLong line)
  | command cmd arg =>
    dsimp only at h
    rw [o.printf_empty] at h
    cases h

/-- In every session without a store outside of an array, nothing comes of any line. -/
theorem session_empty {turns : List (Stdout × List ℕ)} {s : Keyboard} {parsed : List Parsed}
    (h : shellRun s turns = .ok parsed) : parsed = List.replicate turns.length .empty := by
  induction turns generalizing s parsed with
  | nil =>
    cases h
    rfl
  | cons turn turns ih =>
    obtain ⟨⟨p, s'⟩, hturn, h⟩ := bind_eq_ok.1 h
    obtain rfl := shellTurn_empty hturn
    obtain ⟨ps, hps, h⟩ := bind_eq_ok.1 h
    obtain rfl := Except.ok.inj h
    rw [ih hps, List.length_cons, List.replicate_succ]

/-- Arrays of zeros. -/
def Stdout.zeros : Stdout := ⟨.zeros, subs, .replicate _ 0, .replicate _ 0⟩

/-- Enter twice is a session; `cat a` after it is not one that gets to `fork`. -/
theorem session_empty_cat :
    shellRun .start [(.zeros, [0x1c]), (.zeros, [0x1c])] = .ok (List.replicate 2 .empty) ∧
    ∀ cmd arg, shellRun .start [(.zeros, [0x1c]), (.zeros, [46, 30, 20, 57, 30, 0x1c])]
      ≠ .ok [.empty, .command cmd arg] := by
  refine ⟨by decide +kernel, fun cmd arg h => ?_⟩
  have hall := session_empty h
  cases hall

end Bgox
