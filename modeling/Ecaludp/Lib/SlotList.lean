import Mathlib

/-!
# Lists of optional slots

A growable array of slots, each empty or holding one value. `get` reads a slot (slots past the
end are empty), `resize` changes the number of slots as a C++ vector does, and `filled` counts the
slots that hold a value. A list whose count equals its length is `vs.map some` for the values
`vs` it holds (`eq_map_some_of_filled`); this is what lets a counter stand in for a scan.
-/

namespace SlotList

variable {α β : Type*}

/-- The value in slot `i`. -/
def get (l : List (Option α)) (i : ℕ) : Option α := l[i]?.join

/-- Change the number of slots to `n`: surplus slots are cut off, missing ones are empty. -/
def resize (l : List (Option α)) (n : ℕ) : List (Option α) :=
  l.take n ++ List.replicate (n - l.length) none

/-- The number of slots that hold a value. -/
def filled (l : List (Option α)) : ℕ := l.reduceOption.length

/-- The values changed by a function. -/
def map (f : α → β) (l : List (Option α)) : List (Option β) := List.map (Option.map f) l

/-! ## Reading -/

@[simp] theorem get_nil (i : ℕ) : get ([] : List (Option α)) i = none := rfl

theorem get_of_length_le {l : List (Option α)} {i : ℕ} (h : l.length ≤ i) : get l i = none := by
  rw [get, List.getElem?_eq_none h]; rfl

theorem get_eq_getElem {l : List (Option α)} {i : ℕ} (h : i < l.length) : get l i = l[i] := by
  rw [get, List.getElem?_eq_getElem h]; rfl

theorem lt_length_of_get {l : List (Option α)} {i : ℕ} {a : α} (h : get l i = some a) :
    i < l.length := by
  by_contra hi
  rw [get_of_length_le (by omega)] at h
  cases h

theorem ext_get {l l' : List (Option α)} (hlen : l.length = l'.length)
    (h : ∀ i, get l i = get l' i) : l = l' := by
  refine List.ext_getElem hlen fun i h₁ h₂ => ?_
  rw [← get_eq_getElem h₁, ← get_eq_getElem h₂, h i]

@[simp] theorem get_map_some (vs : List α) (i : ℕ) : get (vs.map some) i = vs[i]? := by
  unfold get
  rw [List.getElem?_map]
  cases vs[i]? <;> rfl

theorem get_set (l : List (Option α)) {i : ℕ} (h : i < l.length) (a : Option α) (j : ℕ) :
    get (l.set i a) j = if j = i then a else get l j := by
  unfold get
  rw [List.getElem?_set]
  by_cases hj : i = j
  · subst hj
    rw [if_pos rfl, if_pos h, if_pos rfl]; rfl
  · rw [if_neg hj, if_neg (Ne.symm hj)]

/-! ## Resizing -/

@[simp] theorem length_resize (l : List (Option α)) (n : ℕ) : (resize l n).length = n := by
  unfold resize
  rw [List.length_append, List.length_take, List.length_replicate]
  omega

theorem get_resize (l : List (Option α)) (n i : ℕ) :
    get (resize l n) i = if i < n then get l i else none := by
  by_cases hn : i < n
  · rw [if_pos hn]
    unfold get resize
    by_cases hl : i < l.length
    · rw [List.getElem?_append_left (by rw [List.length_take]; omega), List.getElem?_take_of_lt hn]
    · rw [List.getElem?_append_right (by rw [List.length_take]; omega),
        List.getElem?_replicate, List.getElem?_eq_none (by omega : l.length ≤ i)]
      split_ifs <;> rfl
  · rw [if_neg hn, get_of_length_le (by rw [length_resize]; omega)]

/-- Resizing forgets everything but the slots below the new length. -/
theorem resize_congr {l l' : List (Option α)} (n : ℕ) (h : ∀ i < n, get l i = get l' i) :
    resize l n = resize l' n := by
  apply ext_get (by simp)
  intro i
  rw [get_resize, get_resize]
  split_ifs with hi
  · exact h i hi
  · rfl

theorem resize_of_le {l : List (Option α)} {n : ℕ} (h : l.length ≤ n) :
    resize l n = l ++ List.replicate (n - l.length) none := by
  rw [resize, List.take_of_length_le h]

theorem get_resize_of_le {l : List (Option α)} {n : ℕ} (h : l.length ≤ n) (i : ℕ) :
    get (resize l n) i = get l i := by
  rw [get_resize]
  split_ifs with hi
  · rfl
  · rw [get_of_length_le (by omega)]

/-! ## Counting -/

@[simp] theorem filled_nil : filled ([] : List (Option α)) = 0 := rfl

theorem filled_append (l l' : List (Option α)) : filled (l ++ l') = filled l + filled l' := by
  unfold filled
  rw [List.reduceOption_append, List.length_append]

@[simp] theorem filled_replicate_none (n : ℕ) :
    filled (List.replicate n (none : Option α)) = 0 := by
  unfold filled
  rw [List.reduceOption_replicate_none]; rfl

theorem filled_le_length (l : List (Option α)) : filled l ≤ l.length :=
  List.reduceOption_length_le l

theorem filled_cons (a : Option α) (l : List (Option α)) :
    filled (a :: l) = (if a.isSome then 1 else 0) + filled l := by
  cases a with
  | none => simp [filled]
  | some a => simp [filled, Nat.add_comm]

theorem filled_set {l : List (Option α)} {i : ℕ} (hi : i < l.length) (he : get l i = none) (a : α) :
    filled (l.set i (some a)) = filled l + 1 := by
  induction l generalizing i with
  | nil => simp at hi
  | cons b l ih =>
    cases i with
    | zero =>
      rw [get_eq_getElem hi] at he
      obtain rfl : b = none := he
      rw [List.set_cons_zero, filled_cons, filled_cons]
      simp [Nat.add_comm]
    | succ i =>
      have hi' : i < l.length := by simpa using hi
      have he' : get l i = none := by simpa [get] using he
      rw [List.set_cons_succ, filled_cons, filled_cons, ih hi' he', Nat.add_assoc]

theorem filled_resize_of_le {l : List (Option α)} {n : ℕ} (h : l.length ≤ n) :
    filled (resize l n) = filled l := by
  rw [resize_of_le h, filled_append, filled_replicate_none, Nat.add_zero]

/-- The values a cut loses are those of the slots it drops. -/
theorem filled_resize_add_drop (l : List (Option α)) (n : ℕ) :
    filled (resize l n) + filled (l.drop n) = filled l := by
  conv_rhs => rw [← List.take_append_drop n l, filled_append]
  rw [resize, filled_append, filled_replicate_none, Nat.add_zero]

/-- A cut that drops no value keeps the count. -/
theorem filled_resize_of_get {l : List (Option α)} {n : ℕ} (h : ∀ i, n ≤ i → get l i = none) :
    filled (resize l n) = filled l := by
  have hdrop : l.drop n = List.replicate (l.length - n) none := by
    apply ext_get (by simp)
    intro i
    have hi := h (n + i) (by omega)
    unfold get at hi ⊢
    rw [List.getElem?_drop, hi, List.getElem?_replicate]
    split_ifs <;> rfl
  have := filled_resize_add_drop l n
  rwa [hdrop, filled_replicate_none, Nat.add_zero] at this

theorem filled_eq_length_iff {l : List (Option α)} :
    filled l = l.length ↔ ∀ i < l.length, (get l i).isSome := by
  unfold filled
  rw [List.reduceOption_length_eq_iff]
  constructor
  · intro h i hi
    rw [get_eq_getElem hi]
    exact h _ (List.getElem_mem hi)
  · intro h x hx
    obtain ⟨i, hi, rfl⟩ := List.getElem_of_mem hx
    rw [← get_eq_getElem hi]
    exact h i hi

theorem eq_map_some {l : List (Option α)} (h : ∀ i < l.length, (get l i).isSome) :
    l = l.reduceOption.map some := by
  induction l with
  | nil => rfl
  | cons a l ih =>
    have ha : a.isSome := by simpa [get] using h 0 (by simp)
    obtain ⟨a, rfl⟩ := Option.isSome_iff_exists.mp ha
    rw [List.reduceOption_cons_of_some, List.map_cons, ← ih]
    intro i hi
    simpa [get] using h (i + 1) (by simpa using hi)

theorem eq_map_some_of_filled {l : List (Option α)} (h : filled l = l.length) :
    l = l.reduceOption.map some :=
  eq_map_some (filled_eq_length_iff.mp h)

theorem getElem?_reduceOption {l : List (Option α)} (h : filled l = l.length) (i : ℕ) :
    l.reduceOption[i]? = get l i := by
  conv_rhs => rw [eq_map_some_of_filled h]
  rw [get_map_some]

/-- The count of a list is below its length as long as one slot is empty. -/
theorem filled_lt_length {l : List (Option α)} {i : ℕ} (hi : i < l.length) (he : get l i = none) :
    filled l < l.length := by
  apply lt_of_le_of_ne (filled_le_length l)
  intro h
  have := filled_eq_length_iff.mp h i hi
  rw [he] at this
  cases this

theorem filled_pos {l : List (Option α)} {i : ℕ} {a : α} (h : get l i = some a) : 0 < filled l := by
  have hi := lt_length_of_get h
  rw [get_eq_getElem hi] at h
  have hmem : some a ∈ l := h ▸ List.getElem_mem hi
  exact List.length_pos_of_mem (List.reduceOption_mem_iff.mpr hmem)

theorem exists_get_eq_none {l : List (Option α)} (h : filled l < l.length) :
    ∃ i < l.length, get l i = none := by
  by_contra hall
  push Not at hall
  refine absurd (filled_eq_length_iff.mpr fun i hi => ?_) (Nat.ne_of_lt h)
  exact Option.isSome_iff_ne_none.mpr (hall i hi)

theorem get_drop (l : List (Option α)) (n i : ℕ) : get (l.drop n) i = get l (n + i) := by
  unfold get
  rw [List.getElem?_drop]

/-- Reading slot by slot gives the values one after the other. -/
theorem flatMap_get (f : α → List β) (l : List (Option α)) :
    ((List.range l.length).flatMap fun i => ((get l i).map f).getD []) =
      l.reduceOption.flatMap f := by
  induction l with
  | nil => rfl
  | cons a l ih =>
    rw [List.length_cons, List.range_succ_eq_map, List.flatMap_cons, List.flatMap_map]
    cases a with
    | none =>
      rw [List.reduceOption_cons_of_none, ← ih]
      rfl
    | some a =>
      rw [List.reduceOption_cons_of_some, List.flatMap_cons, ← ih]
      rfl

/-! ## Changing the values -/

@[simp] theorem length_map (f : α → β) (l : List (Option α)) : (map f l).length = l.length :=
  List.length_map _

theorem get_map (f : α → β) (l : List (Option α)) (i : ℕ) : get (map f l) i = (get l i).map f := by
  rw [get, get, map, List.getElem?_map]
  rcases l[i]? with _ | _ | a <;> rfl

theorem resize_map (f : α → β) (l : List (Option α)) (n : ℕ) :
    resize (map f l) n = map f (resize l n) := by
  unfold resize map
  rw [List.map_append, List.map_take, List.length_map, List.map_replicate, Option.map_none]

theorem reduceOption_map (f : α → β) (l : List (Option α)) :
    (map f l).reduceOption = l.reduceOption.map f :=
  List.reduceOption_map

@[simp] theorem filled_map (f : α → β) (l : List (Option α)) : filled (map f l) = filled l := by
  rw [filled, filled, reduceOption_map, List.length_map]

end SlotList
