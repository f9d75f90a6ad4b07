import Mathlib

/-!
# Windows on a sequence of lists

`slices bs lo hi` are the parts of the lists `bs` inside the window from `lo` to `hi` of their
concatenation; a list without an element there has no part. A window is cut at the end of a list
without splitting a part (`slices_append_of_boundary`), and a window inside one list has one part
(`slices_inside`). `InWindows` says that consecutive windows of equal width have been filled up to
some position.
-/

namespace Windows

variable {α : Type*} {bs : List (List α)} {lo mid hi : ℕ}

/-- The parts of the lists between the positions `lo` and `hi` of the concatenation. -/
def slices : List (List α) → ℕ → ℕ → List (List α)
  | [], _, _ => []
  | b :: bs, lo, hi =>
    if lo < min b.length hi then
      (b.take hi).drop lo :: slices bs (lo - b.length) (hi - b.length)
    else
      slices bs (lo - b.length) (hi - b.length)

theorem slices_of_le (h : hi ≤ lo) : slices bs lo hi = [] := by
  induction bs generalizing lo hi with
  | nil => rfl
  | cons b bs ih =>
    rw [slices, if_neg (by omega)]
    exact ih (by omega)

theorem slices_filter (bs : List (List α)) (lo hi : ℕ) :
    slices (bs.filter fun b => 0 < b.length) lo hi = slices bs lo hi := by
  induction bs generalizing lo hi with
  | nil => rfl
  | cons b bs ih =>
    cases b with
    | nil =>
      rw [slices, if_neg (by simp)]
      simpa using ih lo hi
    | cons x b =>
      rw [List.filter_cons_of_pos (by simp), slices, slices, ih]

theorem slices_min_length (bs : List (List α)) (lo hi : ℕ) :
    slices bs lo (min hi bs.flatten.length) = slices bs lo hi := by
  induction bs generalizing lo hi with
  | nil => rfl
  | cons b bs ih =>
    have hlength : (b :: bs).flatten.length = b.length + bs.flatten.length := by
      rw [List.flatten_cons, List.length_append]
    have htake : b.take (min hi (b.length + bs.flatten.length)) = b.take hi := by
      rw [List.take_eq_take_iff]
      omega
    have hmin : min b.length (min hi (b.length + bs.flatten.length)) = min b.length hi := by omega
    have hrest : min hi (b.length + bs.flatten.length) - b.length =
        min (hi - b.length) bs.flatten.length := by
      omega
    rw [hlength, slices, slices, htake, hmin, hrest, ih]

theorem slices_of_length_le (h : bs.flatten.length ≤ lo) : slices bs lo hi = [] := by
  rw [← slices_min_length]
  exact slices_of_le (Nat.le_trans (Nat.min_le_right _ _) h)

theorem slices_append_of_boundary (hlo : lo ≤ mid) (hmid : mid ≤ hi) {i : ℕ}
    (hi' : (bs.take i).flatten.length = mid) :
    slices bs lo hi = slices bs lo mid ++ slices bs mid hi := by
  induction bs generalizing i lo mid hi with
  | nil => rfl
  | cons b bs ih =>
    cases i with
    | zero =>
      obtain rfl : mid = 0 := by simpa using hi'.symm
      obtain rfl : lo = 0 := by omega
      rw [slices_of_le (Nat.le_refl 0), List.nil_append]
    | succ i =>
      rw [List.take_succ_cons, List.flatten_cons, List.length_append] at hi'
      have hwhole : ∀ n, b.length ≤ n → b.take n = b := fun n => List.take_of_length_le
      have hrest : slices bs (lo - b.length) (hi - b.length) =
          slices bs (lo - b.length) (mid - b.length) ++
            slices bs (mid - b.length) (hi - b.length) :=
        ih (by omega) (by omega) (i := i) (by omega)
      have hbehind : ¬ mid < min b.length hi := by omega
      rw [slices, slices, slices, hrest, hwhole hi (by omega), hwhole mid (by omega),
        if_neg hbehind, Nat.min_eq_left (by omega : b.length ≤ hi),
        Nat.min_eq_left (by omega : b.length ≤ mid)]
      split_ifs <;> rfl

theorem slices_inside {i o n : ℕ} (hn : 0 < n) (hon : o + n ≤ (bs.getD i []).length)
    (hlo : lo = (bs.take i).flatten.length + o) :
    slices bs lo (lo + n) = [((bs.getD i []).drop o).take n] := by
  induction bs generalizing i lo with
  | nil =>
    rw [List.getD_nil, List.length_nil] at hon
    omega
  | cons b bs ih =>
    cases i with
    | zero =>
      obtain rfl : lo = o := by simpa using hlo
      rw [List.getD_cons_zero] at hon ⊢
      rw [slices, if_pos (by omega), slices_of_le (by omega), List.drop_take,
        Nat.add_sub_cancel_left]
    | succ i =>
      rw [List.take_succ_cons, List.flatten_cons, List.length_append] at hlo
      rw [List.getD_cons_succ] at hon ⊢
      have hshift : lo + n - b.length = lo - b.length + n := by omega
      rw [slices, if_neg (by omega), hshift]
      exact ih hon (by omega)

/-! ## Consecutive windows -/

/-- The `j`-th of the pieces is what lies in the `j`-th window of width `w`, as far as position
`n`. -/
def InWindows (w : ℕ) (bs : List (List α)) (n : ℕ) (pieces : List (List (List α))) : Prop :=
  ∀ j (hj : j < pieces.length), pieces[j] = slices bs (j * w) (min ((j + 1) * w) n)

variable {w n n' : ℕ} {pieces : List (List (List α))}

theorem inWindows_nil : InWindows w bs n [] := fun _ hj => absurd hj (Nat.not_lt_zero _)

theorem inWindows_concat {piece : List (List α)} :
    InWindows w bs n (pieces ++ [piece]) ↔ InWindows w bs n pieces ∧
      piece = slices bs (pieces.length * w) (min ((pieces.length + 1) * w) n) := by
  constructor
  · intro h
    refine ⟨fun j hj => ?_, ?_⟩
    · rw [← h j (by rw [List.length_append]; omega), List.getElem_append_left hj]
    · rw [← h pieces.length (by simp), List.getElem_concat_length rfl]
  · rintro ⟨h, hpiece⟩ j hj
    rw [List.length_append, List.length_singleton] at hj
    rcases Nat.lt_succ_iff_lt_or_eq.mp hj with hlt | rfl
    · rw [List.getElem_append_left hlt, h j hlt]
    · rw [List.getElem_concat_length rfl, hpiece]

theorem InWindows.of_full (h : InWindows w bs n pieces) (hn : pieces.length * w ≤ n)
    (hn' : pieces.length * w ≤ n') : InWindows w bs n' pieces := by
  intro j hj
  have hle : (j + 1) * w ≤ pieces.length * w := Nat.mul_le_mul_right w hj
  rw [h j hj, Nat.min_eq_left (Nat.le_trans hle hn), Nat.min_eq_left (Nat.le_trans hle hn')]

/-- The last piece takes the part of its window behind position `n`, which begins at the end of a
list or is the first one of the window. -/
theorem inWindows_extend {piece : List (List α)} (hfull : pieces.length * w ≤ n) (hle : n ≤ n')
    (hroom : n' ≤ (pieces.length + 1) * w) {i : ℕ}
    (hn : (bs.take i).flatten.length = n ∨ n = pieces.length * w)
    (h : InWindows w bs n (pieces ++ [piece])) :
    InWindows w bs n' (pieces ++ [piece ++ slices bs n n']) := by
  obtain ⟨hpieces, hpiece⟩ := inWindows_concat.mp h
  rw [Nat.min_eq_right (Nat.le_trans hle hroom)] at hpiece
  refine inWindows_concat.mpr ⟨hpieces.of_full hfull (Nat.le_trans hfull hle), ?_⟩
  rw [Nat.min_eq_right hroom, hpiece]
  rcases hn with hboundary | rfl
  · exact (slices_append_of_boundary hfull hle hboundary).symm
  · rw [slices_of_le (Nat.le_refl _), List.nil_append]

end Windows
