import Mathlib

/-!
# C strings

A character array holds the C string in front of its first NUL.  `strncmp` compares two arrays as
strings: what stands behind a NUL does not matter.
-/

namespace CString

/-- The C string in a character array. -/
def ofArray (s : List UInt8) : List UInt8 := s.takeWhile (· ≠ 0)

theorem ofArray_cons_zero (s : List UInt8) : ofArray (0 :: s) = [] := rfl

theorem ofArray_cons_of_ne {a : UInt8} (h : a ≠ 0) (s : List UInt8) :
    ofArray (a :: s) = a :: ofArray s :=
  List.takeWhile_cons_of_pos (by simpa using h)

/-- `strncmp` on arrays of `n` characters or more: the difference of the first characters that
differ, up to a common NUL. -/
def strncmp : ℕ → List UInt8 → List UInt8 → ℤ
  | n + 1, a :: s, b :: t => if a ≠ b ∨ a = 0 then (a.toNat : ℤ) - b.toNat else strncmp n s t
  | _, _, _ => 0

/-- Equal strings: two arrays of `n` characters compare equal if they hold the same string. -/
theorem strncmp_eq_zero_iff {n : ℕ} {s t : List UInt8} (hs : s.length = n) (ht : t.length = n) :
    strncmp n s t = 0 ↔ ofArray s = ofArray t := by
  induction n generalizing s t with
  | zero =>
    rw [List.length_eq_zero_iff] at hs ht
    subst hs ht
    exact ⟨fun _ => rfl, fun _ => rfl⟩
  | succ n ih =>
    obtain ⟨a, s, rfl⟩ := List.exists_cons_of_length_eq_add_one hs
    obtain ⟨b, t, rfl⟩ := List.exists_cons_of_length_eq_add_one ht
    have hrec := ih (Nat.succ.inj hs) (Nat.succ.inj ht)
    have hsub : (a.toNat : ℤ) - b.toNat = 0 ↔ a = b := by
      rw [← UInt8.toNat_inj]
      omega
    rw [strncmp]
    by_cases hab : a = b
    · subst hab
      by_cases ha : a = 0
      · subst ha
        rw [if_pos (Or.inr rfl), ofArray_cons_zero, ofArray_cons_zero]
        simp
      · rw [if_neg (by simp [ha]), hrec, ofArray_cons_of_ne ha, ofArray_cons_of_ne ha]
        simp
    · rw [if_pos (Or.inl hab), hsub]
      constructor
      · intro h
        exact absurd h hab
      · intro h
        by_cases ha : a = 0
        · subst ha
          rw [ofArray_cons_zero, ofArray_cons_of_ne (Ne.symm hab)] at h
          cases h
        · by_cases hb : b = 0
          · subst hb
            rw [ofArray_cons_zero, ofArray_cons_of_ne ha] at h
            cases h
          · rw [ofArray_cons_of_ne ha, ofArray_cons_of_ne hb] at h
            exact (List.cons.inj h).1

end CString
