import Mathlib

/-!
# Cutting into blocks

`Cut n bs` says that `bs` is a list cut into blocks of `n` elements, the last of which may be
shorter but not empty. The number of blocks and every single block are determined by the
concatenation.
-/

namespace Blocks

variable {α : Type*} {n : ℕ} {bs : List (List α)}

/-- All blocks but the last have length `n`, the last one at least one and at most `n`. -/
structure Cut (n : ℕ) (bs : List (List α)) : Prop where
  pos : ∀ b ∈ bs, 0 < b.length
  le : ∀ b ∈ bs, b.length ≤ n
  full : ∀ b ∈ bs.dropLast, b.length = n

theorem cut_nil : Cut n ([] : List (List α)) := ⟨by simp, by simp, by simp⟩

theorem cut_concat {b : List α} :
    Cut n (bs ++ [b]) ↔ (∀ b ∈ bs, b.length = n) ∧ 0 < b.length ∧ b.length ≤ n := by
  constructor
  · intro h
    have hfull := h.full
    rw [List.dropLast_concat] at hfull
    exact ⟨hfull, h.pos b (by simp), h.le b (by simp)⟩
  · rintro ⟨hfull, hpos, hle⟩
    have hmem : ∀ c ∈ bs ++ [b], c.length = n ∨ c = b := by
      intro c hc
      rcases List.mem_append.mp hc with hc | hc
      · exact Or.inl (hfull c hc)
      · exact Or.inr (List.mem_singleton.mp hc)
    refine ⟨fun c hc => ?_, fun c hc => ?_, ?_⟩
    · rcases hmem c hc with h | rfl
      · omega
      · exact hpos
    · rcases hmem c hc with h | rfl
      · omega
      · exact hle
    · rw [List.dropLast_concat]
      exact hfull

theorem length_flatten_of_full (h : ∀ b ∈ bs, b.length = n) :
    bs.flatten.length = bs.length * n := by
  rw [List.length_flatten, List.map_congr_left h, List.map_const', List.sum_replicate, smul_eq_mul]

/-- One block may be of another length. -/
theorem length_flatten_of_full_except {t : ℕ} (ht : t < bs.length)
    (h : ∀ i (hi : i < bs.length), i ≠ t → bs[i].length = n) :
    bs.flatten.length = (bs.length - 1) * n + bs[t].length := by
  have hfront : (bs.take t).flatten.length = t * n := by
    have hfull : ∀ b ∈ bs.take t, b.length = n := by
      intro b hb
      obtain ⟨i, hi, rfl⟩ := List.mem_take_iff_getElem.mp hb
      exact h i (by omega) (by omega)
    rw [length_flatten_of_full hfull, List.length_take, Nat.min_eq_left (by omega)]
  have hback : (bs.drop (t + 1)).flatten.length = (bs.length - (t + 1)) * n := by
    have hfull : ∀ b ∈ bs.drop (t + 1), b.length = n := by
      intro b hb
      obtain ⟨i, hi, rfl⟩ := List.mem_drop_iff_getElem.mp hb
      exact h (t + 1 + i) (by omega) (by omega)
    rw [length_flatten_of_full hfull, List.length_drop]
  have hsplit : bs = bs.take t ++ (bs[t] :: bs.drop (t + 1)) := by
    rw [← List.drop_eq_getElem_cons ht, List.take_append_drop]
  have hcount : bs.length - 1 = t + (bs.length - (t + 1)) := by omega
  have hlength := congrArg (fun l : List (List α) => l.flatten.length) hsplit
  simp only [List.flatten_append, List.flatten_cons, List.length_append] at hlength
  rw [hlength, hfront, hback, hcount, Nat.add_mul]
  omega

theorem Cut.length_flatten_take (h : Cut n bs) {i : ℕ} (hi : i < bs.length) :
    (bs.take i).flatten.length = i * n := by
  have hfull : ∀ b ∈ bs.take i, b.length = n := by
    intro b hb
    apply h.full b
    rw [List.dropLast_eq_take]
    exact (List.take_subset_take_left bs (by omega)) hb
  rw [length_flatten_of_full hfull, List.length_take, Nat.min_eq_left (by omega)]

/-- The number of blocks is the size divided by the block size, rounded up. -/
theorem Cut.length_eq (h : Cut n bs) (hn : 0 < n) :
    bs.length = (bs.flatten.length + (n - 1)) / n := by
  rcases List.eq_nil_or_concat' bs with rfl | ⟨cs, b, rfl⟩
  · show 0 = (0 + (n - 1)) / n
    rw [Nat.div_eq_of_lt (by omega)]
  · obtain ⟨hfull, hpos, hle⟩ := cut_concat.mp h
    have hsize : (cs ++ [b]).flatten.length = cs.length * n + b.length := by
      rw [List.flatten_append, List.length_append, length_flatten_of_full hfull,
        List.flatten_singleton]
    have hone : (b.length + (n - 1)) / n = 1 := Nat.div_eq_of_lt_le (by omega) (by omega)
    rw [hsize, List.length_append, List.length_singleton, Nat.add_assoc, Nat.mul_comm,
      Nat.mul_add_div hn, hone]

/-- Block `i` of a list cut into blocks of `n` elements. -/
def block (n : ℕ) (l : List α) (i : ℕ) : List α := (l.drop (i * n)).take n

theorem length_block (n : ℕ) (l : List α) (i : ℕ) :
    (block n l i).length = min n (l.length - i * n) := by
  rw [block, List.length_take, List.length_drop]

theorem length_block_of_le {l : List α} {i : ℕ} (h : (i + 1) * n ≤ l.length) :
    (block n l i).length = n := by
  rw [Nat.succ_mul] at h
  rw [length_block]
  omega

/-- The blocks of a list. -/
def blocks (n : ℕ) (l : List α) : List (List α) := (List.range (l.length ⌈/⌉ n)).map (block n l)

@[simp] theorem length_blocks (n : ℕ) (l : List α) : (blocks n l).length = l.length ⌈/⌉ n := by
  rw [blocks, List.length_map, List.length_range]

theorem Cut.getElem_eq (h : Cut n bs) {i : ℕ} (hi : i < bs.length) :
    bs[i] = block n bs.flatten i := by
  unfold block
  have hsplit : bs.flatten = (bs.take i).flatten ++ (bs[i] ++ (bs.drop (i + 1)).flatten) := by
    conv_lhs => rw [← List.take_append_drop i bs, List.drop_eq_getElem_cons hi]
    rw [List.flatten_append, List.flatten_cons]
  rw [hsplit, List.drop_left' (h.length_flatten_take hi)]
  by_cases hlast : i + 1 < bs.length
  · have hfull : bs[i].length = n := by
      apply h.full _
      rw [List.mem_iff_getElem]
      exact ⟨i, by rw [List.length_dropLast]; omega, List.getElem_dropLast _⟩
    rw [List.take_left' hfull]
  · rw [List.drop_eq_nil_of_le (by omega), List.flatten_nil, List.append_nil,
      List.take_of_length_le (h.le _ (List.getElem_mem hi))]

theorem Cut.length_getElem (h : Cut n bs) {i : ℕ} (hi : i < bs.length) :
    bs[i].length = min n (bs.flatten.length - i * n) := by
  rw [h.getElem_eq hi, length_block]

theorem Cut.length_eq_ceilDiv (h : Cut n bs) (hn : 0 < n) :
    bs.length = bs.flatten.length ⌈/⌉ n := by
  rw [h.length_eq hn, Nat.ceilDiv_eq_add_pred_div, Nat.add_sub_assoc hn]

/-- A list is cut into its blocks in one way only. -/
theorem Cut.eq_blocks (h : Cut n bs) (hn : 0 < n) : bs = blocks n bs.flatten := by
  refine List.ext_getElem ?_ fun i h₁ h₂ => ?_
  · rw [length_blocks, h.length_eq_ceilDiv hn]
  · rw [h.getElem_eq h₁]
    simp [blocks]

end Blocks
