import Mathlib

/-!
# Xor with a shifted copy

Xoring a word with a copy of itself, shifted by at least one bit, loses nothing: bit by bit, from
the end that the shift fills with zeros, the word can be read off the result.
-/

namespace Xorshift

variable {w k : ℕ}

/-- `x ^ (x << k)`. -/
theorem xor_shiftLeft_injective (hk : 0 < k) :
    Function.Injective fun x : BitVec w => x ^^^ x <<< k := by
  intro x y hxy
  have hbits : ∀ i, x.getLsbD i = y.getLsbD i := by
    intro i
    induction i using Nat.strong_induction_on with
    | _ i ih =>
      have hi := congrArg (BitVec.getLsbD · i) hxy
      simp only [BitVec.getLsbD_xor, BitVec.getLsbD_shiftLeft] at hi
      by_cases hlt : i < k
      · simpa [hlt] using hi
      · rw [ih (i - k) (by omega)] at hi
        exact Bool.xor_left_inj.mp hi
  exact BitVec.eq_of_getLsbD_eq fun i _ => hbits i

/-- `x ^ (x >> k)`. -/
theorem xor_ushiftRight_injective (hk : 0 < k) :
    Function.Injective fun x : BitVec w => x ^^^ x >>> k := by
  intro x y hxy
  have hbits : ∀ n i, w ≤ i + n → x.getLsbD i = y.getLsbD i := by
    -- `n` counts the bits above bit `i`
    intro n
    induction n with
    | zero =>
      intro i hi
      rw [BitVec.getLsbD_of_ge x i hi, BitVec.getLsbD_of_ge y i hi]
    | succ n ih =>
      intro i hi
      have hbit := congrArg (BitVec.getLsbD · i) hxy
      simp only [BitVec.getLsbD_xor, BitVec.getLsbD_ushiftRight] at hbit
      rw [ih (k + i) (by omega)] at hbit
      exact Bool.xor_left_inj.mp hbit
  exact BitVec.eq_of_getLsbD_eq fun i _ => hbits w i (Nat.le_add_left _ _)

end Xorshift
