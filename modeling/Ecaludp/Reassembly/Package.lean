import Ecaludp.Reassembly.Datagram

/-!
# What a package holds

`part` is the content of a fragment list, slot by slot, and `Complete` what the completeness check
is meant to find out. The check compares two counters, which says the same as long as the counter
of received fragments is the number of filled slots (`Counted`). Handlers keep it so but for one:
a fragmentation info that cuts off a slot with a fragment in it (`CutsOff`) leaves the fragment
counted (`Overcounted`), and no later fragment brings the counter back.
-/

namespace Ecaludp

open ByteOrder Reassembly

theorem toNat_add_one (num : UInt32) (h : num.toNat + 1 < 2 ^ 32) :
    (num + 1).toNat = num.toNat + 1 := by
  rw [UInt32.toNat_add]
  exact Nat.mod_eq_of_lt h

namespace FragmentedPackage

variable {p : FragmentedPackage} {now : TimePoint} {num len : UInt32} {view : OwningBuffer}

/-- The bytes of fragment `i`, if it is there. -/
def part (p : FragmentedPackage) (i : ℕ) : Option (List UInt8) :=
  (SlotList.get p.fragments i).map OwningBuffer.bytes

/-- The info is there and every fragment that it announces. -/
def Complete (p : FragmentedPackage) : Prop :=
  p.info.fragmentInfoReceived = true ∧ ∀ i < p.fragments.length, (p.part i).isSome = true

/-- The fragments one after the other. -/
def content (p : FragmentedPackage) : List UInt8 :=
  (List.range p.fragments.length).flatMap fun i => (p.part i).getD []

/-- An info that announces `num` fragments cuts off one that was stored. -/
def CutsOff (p : FragmentedPackage) (num : UInt32) : Prop :=
  ∃ i, num.toNat ≤ i ∧ (p.part i).isSome = true

/-- The counter of received fragments is the number of fragments in the list. -/
structure Counted (p : FragmentedPackage) : Prop where
  received : p.info.receivedFragments.toNat = SlotList.filled p.fragments
  length_lt : p.fragments.length < 2 ^ 32
  total : p.info.fragmentInfoReceived = true → p.fragments.length = p.info.totalFragments.toNat

/-- More fragments were counted than the list holds, and the counter has room for those to come. -/
structure Overcounted (p : FragmentedPackage) : Prop where
  announced : p.info.fragmentInfoReceived = true
  total : p.fragments.length = p.info.totalFragments.toNat
  exceeds : SlotList.filled p.fragments < p.info.receivedFragments.toNat
  room : p.info.receivedFragments.toNat + p.fragments.length <
    2 ^ 32 + SlotList.filled p.fragments

/-! ## Parts -/

theorem part_eq_none {i : ℕ} : p.part i = none ↔ SlotList.get p.fragments i = none :=
  Option.map_eq_none_iff

@[simp] theorem part_default (i : ℕ) : part {} i = none := rfl

theorem withRoom_of_info (h : p.info.fragmentInfoReceived = true) (num : UInt32) :
    p.withRoom num = p := by
  unfold withRoom
  rw [if_neg (by simp [h])]

theorem exists_withRoom (p : FragmentedPackage) (num : UInt32) :
    ∃ n, p.fragments.length ≤ n ∧ (p.withRoom num).fragments = SlotList.resize p.fragments n := by
  unfold withRoom
  cases p.info.fragmentInfoReceived with
  | true =>
    refine ⟨p.fragments.length, Nat.le_refl _, ?_⟩
    rw [SlotList.resize_of_le (Nat.le_refl _), Nat.sub_self]
    exact (List.append_nil _).symm
  | false => exact ⟨_, Nat.le_max_left _ _, rfl⟩

/-- As long as the number of fragments is unknown there is room for every fragment number but the
largest, for which the number plus one is zero. -/
theorem lt_length_withRoom (hinfo : p.info.fragmentInfoReceived = false)
    (hnum : num.toNat + 1 < 2 ^ 32) : num.toNat < (p.withRoom num).fragments.length := by
  unfold withRoom
  simp only
  rw [if_pos (by simp [hinfo]), SlotList.length_resize, toNat_add_one num hnum]
  omega

theorem length_withRoom_lt (h : p.fragments.length < 2 ^ 32) (num : UInt32) :
    (p.withRoom num).fragments.length < 2 ^ 32 := by
  unfold withRoom
  simp only
  split_ifs
  · have := (num + 1).toNat_lt
    rw [SlotList.length_resize]
    omega
  · exact h

theorem get_withRoom (p : FragmentedPackage) (num : UInt32) (i : ℕ) :
    SlotList.get (p.withRoom num).fragments i = SlotList.get p.fragments i := by
  obtain ⟨n, hn, h⟩ := p.exists_withRoom num
  rw [h, SlotList.get_resize_of_le hn]

theorem filled_withRoom (p : FragmentedPackage) (num : UInt32) :
    SlotList.filled (p.withRoom num).fragments = SlotList.filled p.fragments := by
  obtain ⟨n, hn, h⟩ := p.exists_withRoom num
  rw [h, SlotList.filled_resize_of_le hn]

@[simp] theorem part_withRoom (p : FragmentedPackage) (num : UInt32) (i : ℕ) :
    (p.withRoom num).part i = p.part i :=
  congrArg (Option.map OwningBuffer.bytes) (p.get_withRoom num i)

theorem part_withFragment (h : num.toNat < p.fragments.length) (i : ℕ) :
    (p.withFragment now num view).part i = if i = num.toNat then some view.bytes else p.part i := by
  unfold part withFragment
  simp only
  rw [SlotList.get_set _ h]
  split_ifs <;> rfl

@[simp] theorem length_withFragment :
    (p.withFragment now num view).fragments.length = p.fragments.length :=
  List.length_set

theorem part_withInfo (i : ℕ) :
    (p.withInfo now num len).part i = if i < num.toNat then p.part i else none := by
  unfold part withInfo
  simp only
  rw [SlotList.get_resize]
  split_ifs <;> rfl

@[simp] theorem length_withInfo : (p.withInfo now num len).fragments.length = num.toNat :=
  SlotList.length_resize _ _

theorem not_cutsOff : ¬ p.CutsOff num ↔ ∀ i, num.toNat ≤ i → p.part i = none := by
  unfold CutsOff
  simp only [not_exists, not_and, Bool.not_eq_true, Option.isSome_eq_false_iff,
    Option.isNone_iff_eq_none]

theorem not_cutsOff_of_length_le (h : p.fragments.length ≤ num.toNat) : ¬ p.CutsOff num := by
  rw [not_cutsOff]
  intro i hi
  rw [part, SlotList.get, List.getElem?_eq_none (h.trans hi)]
  rfl

theorem part_withInfo_of_not_cutsOff (h : ¬ p.CutsOff num) (i : ℕ) :
    (p.withInfo now num len).part i = p.part i := by
  rw [part_withInfo]
  split_ifs with hi
  · rfl
  · exact (not_cutsOff.mp h i (Nat.not_lt.mp hi)).symm

theorem content_eq (p : FragmentedPackage) :
    p.content = p.fragments.reduceOption.flatMap OwningBuffer.bytes :=
  SlotList.flatMap_get _ _

theorem length_content (p : FragmentedPackage) :
    p.content.length = (p.fragments.reduceOption.map OwningBuffer.size).sum := by
  rw [content_eq, List.length_flatMap]
  simp

/-! ## The counter -/

theorem counted_default : Counted {} where
  received := rfl
  length_lt := by decide
  total h := by cases h

theorem Counted.withRoom (h : p.Counted) (num : UInt32) : (p.withRoom num).Counted where
  received := by
    rw [filled_withRoom]
    exact h.received
  length_lt := length_withRoom_lt h.length_lt num
  total hinfo := by
    rw [withRoom_of_info (p := p) hinfo]
    exact h.total hinfo

/-- An info that cuts off nothing keeps the count. -/
theorem Counted.withInfo (h : p.Counted) (now : TimePoint) (len : UInt32) (hcut : ¬ p.CutsOff num) :
    (p.withInfo now num len).Counted where
  received := by
    show _ = SlotList.filled (SlotList.resize p.fragments num.toNat)
    rw [SlotList.filled_resize_of_get fun i hi => part_eq_none.mp (not_cutsOff.mp hcut i hi)]
    exact h.received
  length_lt := by
    rw [length_withInfo]
    exact num.toNat_lt
  total _ := length_withInfo

/-- An info that cuts off a fragment leaves it counted. -/
theorem Counted.withInfo_overcounted (h : p.Counted) (now : TimePoint) (len : UInt32)
    (hcut : p.CutsOff num) : (p.withInfo now num len).Overcounted := by
  obtain ⟨i, hi, hpart⟩ := hcut
  obtain ⟨v, hv⟩ := Option.isSome_iff_exists.mp (Option.isSome_map ▸ hpart)
  have hpos : 0 < SlotList.filled (p.fragments.drop num.toNat) := by
    refine SlotList.filled_pos (i := i - num.toNat) (a := v) ?_
    rw [SlotList.get_drop, Nat.add_sub_cancel' hi]
    exact hv
  have hsplit := SlotList.filled_resize_add_drop p.fragments num.toNat
  have hdrop := SlotList.filled_le_length (p.fragments.drop num.toNat)
  have hlength := h.length_lt
  have hreceived := h.received
  rw [List.length_drop] at hdrop
  refine ⟨rfl, length_withInfo, ?_, ?_⟩
  · show SlotList.filled (SlotList.resize p.fragments num.toNat) < p.info.receivedFragments.toNat
    omega
  · rw [length_withInfo]
    show p.info.receivedFragments.toNat + num.toNat <
      2 ^ 32 + SlotList.filled (SlotList.resize p.fragments num.toNat)
    omega

section Store

variable (hlt : num.toNat < p.fragments.length)
  (hempty : SlotList.get p.fragments num.toNat = none)

include hlt hempty

theorem Counted.withFragment (h : p.Counted) (now : TimePoint) (view : OwningBuffer) :
    (p.withFragment now num view).Counted where
  received := by
    have h₁ := h.length_lt
    have h₂ := SlotList.filled_lt_length hlt hempty
    have h₃ := h.received
    show (p.info.receivedFragments + 1).toNat = SlotList.filled (p.fragments.set _ _)
    rw [SlotList.filled_set hlt hempty, toNat_add_one _ (by omega), h₃]
  length_lt := by
    rw [length_withFragment]
    exact h.length_lt
  total hinfo := by
    rw [length_withFragment]
    exact h.total hinfo

theorem Overcounted.withFragment (h : p.Overcounted) (now : TimePoint) (view : OwningBuffer) :
    (p.withFragment now num view).Overcounted ∧
      (p.withFragment now num view).info.receivedFragments.toNat =
        p.info.receivedFragments.toNat + 1 := by
  have hexceeds := h.exceeds
  have hroom := h.room
  have hfilled := SlotList.filled_lt_length hlt hempty
  have hone : (p.info.receivedFragments + 1).toNat = p.info.receivedFragments.toNat + 1 :=
    toNat_add_one _ (by omega)
  refine ⟨⟨h.announced, ?_, ?_, ?_⟩, hone⟩
  · rw [length_withFragment]
    exact h.total
  · show SlotList.filled (p.fragments.set _ _) < (p.info.receivedFragments + 1).toNat
    rw [SlotList.filled_set hlt hempty, hone]
    exact Nat.succ_lt_succ hexceeds
  · rw [length_withFragment]
    show (p.info.receivedFragments + 1).toNat + _ < _ + SlotList.filled (p.fragments.set _ _)
    rw [SlotList.filled_set hlt hempty, hone]
    omega

end Store

/-! ## The completeness check -/

theorem isSome_part {i : ℕ} : (p.part i).isSome = (SlotList.get p.fragments i).isSome :=
  Option.isSome_map

theorem complete_iff_filled :
    p.Complete ↔ p.info.fragmentInfoReceived = true ∧
      SlotList.filled p.fragments = p.fragments.length := by
  unfold Complete
  rw [SlotList.filled_eq_length_iff]
  simp only [isSome_part]

/-- Completeness check: on a counted package the counters say whether it is complete. -/
theorem Counted.complete_iff (h : p.Counted) :
    p.Complete ↔ p.info.fragmentInfoReceived = true ∧
      p.info.receivedFragments = p.info.totalFragments := by
  rw [complete_iff_filled]
  constructor
  · rintro ⟨hinfo, hfilled⟩
    refine ⟨hinfo, UInt32.toNat_inj.mp ?_⟩
    rw [h.received, hfilled, h.total hinfo]
  · rintro ⟨hinfo, heq⟩
    refine ⟨hinfo, ?_⟩
    rw [← h.received, heq, h.total hinfo]

end FragmentedPackage

namespace Entry

open FragmentedPackage

variable {p : FragmentedPackage}

theorem finish_of_complete (h : p.Counted) (hcomplete : p.Complete)
    (hsize : p.content.length = p.info.totalSizeBytes.toNat) :
    finish p = .ok (none, ⟨some p.content, .ok⟩) := by
  rw [length_content] at hsize
  rw [finish, if_pos (h.complete_iff.mp hcomplete), if_pos (complete_iff_filled.mp hcomplete).2,
    if_pos hsize, content_eq]

theorem finish_of_size_ne (h : p.Counted) (hcomplete : p.Complete)
    (hsize : p.content.length ≠ p.info.totalSizeBytes.toNat) :
    finish p = .ok (none, ⟨none, .malformedReassembledMessage⟩) := by
  rw [length_content] at hsize
  rw [finish, if_pos (h.complete_iff.mp hcomplete), if_pos (complete_iff_filled.mp hcomplete).2,
    if_neg hsize]

theorem finish_of_not_complete (h : p.Counted) (hcomplete : ¬ p.Complete) :
    finish p = .ok (some p, ⟨none, .ok⟩) :=
  if_neg (h.complete_iff.not.mp hcomplete)

theorem exists_finish_of_counted (h : p.Counted) : ∃ r, finish p = .ok r := by
  by_cases hcomplete : p.Complete
  · by_cases hsize : p.content.length = p.info.totalSizeBytes.toNat
    · exact ⟨_, finish_of_complete h hcomplete hsize⟩
    · exact ⟨_, finish_of_size_ne h hcomplete hsize⟩
  · exact ⟨_, finish_of_not_complete h hcomplete⟩

/-! ## One fragment -/

theorem ge_length_iff {num : UInt32} (h : p.fragments.length < 2 ^ 32) :
    num ≥ UInt32.ofNat p.fragments.length ↔ p.fragments.length ≤ num.toNat := by
  rw [ge_iff_le, UInt32.le_iff_toNat_le, UInt32.toNat_ofNat', Nat.mod_eq_of_lt h]

theorem stored_of_new {now : TimePoint} {num : UInt32} {view : OwningBuffer}
    (hlength : p.fragments.length < 2 ^ 32)
    (h : num.toNat < p.fragments.length) (hempty : SlotList.get p.fragments num.toNat = none) :
    stored now p num (some view) = some (p.withFragment now num view) := by
  unfold stored
  rw [if_neg ((ge_length_iff hlength).not.mpr (Nat.not_le.mpr h)), if_neg (by simp [hempty])]
  rfl

section Fragment

variable {entry : Entry} {now : TimePoint} {num : UInt32} {view : Option OwningBuffer}
  (hlength : entry.package.fragments.length < 2 ^ 32)

include hlength

theorem step_fragment_of_le (h : (entry.package.withRoom num).fragments.length ≤ num.toNat) :
    step now entry (.fragment num view) =
      .ok (some (entry.package.withRoom num), ⟨none, .malformedDatagram⟩) :=
  if_pos ((ge_length_iff (length_withRoom_lt hlength num)).mpr h)

theorem step_fragment_of_isSome (h : num.toNat < (entry.package.withRoom num).fragments.length)
    (hpart : (entry.package.part num.toNat).isSome = true) :
    step now entry (.fragment num view) =
      .ok (some (entry.package.withRoom num), ⟨none, .duplicateDatagram⟩) := by
  rw [isSome_part, ← get_withRoom _ num] at hpart
  have hroom := length_withRoom_lt hlength num
  show Entry.store now _ num view = _
  unfold Entry.store
  rw [if_neg ((ge_length_iff hroom).not.mpr (Nat.not_le.mpr h)), if_pos hpart]

theorem step_fragment_of_new {view : OwningBuffer}
    (h : num.toNat < (entry.package.withRoom num).fragments.length)
    (hpart : entry.package.part num.toNat = none) :
    step now entry (.fragment num (some view)) =
      finish ((entry.package.withRoom num).withFragment now num view) := by
  rw [part_eq_none, ← get_withRoom _ num] at hpart
  have hroom := length_withRoom_lt hlength num
  show Entry.store now _ num (some view) = _
  unfold Entry.store
  rw [if_neg ((ge_length_iff hroom).not.mpr (Nat.not_le.mpr h)), if_neg (by simp [hpart])]

end Fragment

/-- An overcounted package faults or stays. -/
theorem finish_of_overcounted (h : p.Overcounted) :
    p.info.receivedFragments = p.info.totalFragments ∧ finish p = .error .nullFragment ∨
      p.info.receivedFragments ≠ p.info.totalFragments ∧ finish p = .ok (some p, ⟨none, .ok⟩) := by
  have hexceeds := h.exceeds
  have htotal := h.total
  by_cases heq : p.info.receivedFragments = p.info.totalFragments
  · left
    refine ⟨heq, ?_⟩
    rw [finish, if_pos ⟨h.announced, heq⟩, if_neg]
    rw [heq] at hexceeds
    omega
  · right
    exact ⟨heq, if_neg fun h' => heq h'.2⟩

end Entry

end Ecaludp
