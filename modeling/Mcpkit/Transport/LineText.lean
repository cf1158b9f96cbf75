import Mcpkit.Lib.Lines
import Mcpkit.Transport.Http

/-!
# Lines of text

The line transports take a line to end at a line feed and leave out a carriage
return in front of it.
-/

namespace Mcpkit.Transport

open Json List

def lf : UInt8 := 0x0A
def cr : UInt8 := 0x0D

def stripCr (line : Bytes) : Bytes := if line.getLast? = some cr then line.dropLast else line

@[simp] theorem stripCr_concat_cr (s : Bytes) : stripCr (s ++ [cr]) = s := by simp [stripCr]

theorem stripCr_of_notMem {s : Bytes} (h : cr ∉ s) : stripCr s = s := by
  apply if_neg
  intro hlast
  exact h (mem_of_getLast? hlast)

theorem stripCr_cases (s : Bytes) : stripCr s = s ∨ s = stripCr s ++ [cr] := by
  by_cases hlast : s.getLast? = some cr
  · right
    obtain ⟨t, rfl⟩ := getLast?_eq_some_iff.mp hlast
    simp
  · exact .inl (if_neg hlast)

@[simp] theorem stripCr_nil : stripCr [] = [] := rfl

theorem stripCr_append (d : Bytes) {w : Bytes} (h : w ≠ []) :
    stripCr (d ++ w) = d ++ stripCr w := by
  have hlast : (d ++ w).getLast? = w.getLast? := getLast?_append_of_ne_nil d h
  by_cases hcr : w.getLast? = some cr
  · rw [stripCr, stripCr, hlast, if_pos hcr, if_pos hcr, dropLast_append_of_ne_nil h]
  · rw [stripCr, stripCr, hlast, if_neg hcr, if_neg hcr]

theorem length_stripCr_le (d w : Bytes) : (stripCr w).length ≤ (stripCr (d ++ w)).length := by
  by_cases hw : w = []
  · simp [hw]
  · rw [stripCr_append d hw, length_append]
    exact Nat.le_add_left _ _

theorem stripCr_eq_append_iff (d w : Bytes) :
    stripCr w = stripCr (d ++ w) ↔ d = [] ∨ (d = [cr] ∧ w = []) := by
  by_cases hw : w = []
  · subst hw
    rw [append_nil, stripCr_nil]
    constructor
    · intro h
      rcases stripCr_cases d with heq | heq
      · exact .inl (heq.symm.trans h.symm)
      · rw [← h] at heq
        exact .inr ⟨heq, rfl⟩
    · rintro (rfl | ⟨rfl, -⟩) <;> rfl
  · rw [stripCr_append d hw]
    simp [hw]

theorem ne_lf_of_notMem {s : Bytes} (h : lf ∉ s) : ∀ c ∈ s, decide (c ≠ lf) = true := by
  intro c hc
  apply decide_eq_true
  rintro rfl
  exact h hc

theorem takeWhile_append_lf {pre : Bytes} (h : lf ∉ pre) (post : Bytes) :
    (pre ++ lf :: post).takeWhile (· ≠ lf) = pre := by
  rw [takeWhile_append_of_pos (ne_lf_of_notMem h)]
  simp

end Mcpkit.Transport
