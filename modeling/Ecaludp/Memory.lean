import Mathlib

/-!
# Raw memory and views into it

`RawMemory` is a block of bytes of which the first `size` are in use; the rest is whatever earlier
users left there. `OwningBuffer` is a view into such a block; a view outside the bytes in use
cannot be built. Allocations succeed here.
-/

namespace Ecaludp

/-- What makes a run of the code undefined. -/
inductive Fault where
  /-- a null `shared_ptr` in a fragment list is dereferenced -/
  | nullFragment
  /-- a fragment list is indexed past its end -/
  | fragmentOutOfRange
  /-- a `memcpy` writes past the end of its target -/
  | writeOutOfRange
  deriving DecidableEq, Repr

/-- A point in time of the steady clock, and a difference of two, in nanoseconds. -/
abbrev TimePoint := ℤ

abbrev Duration := ℤ

/-- `ecaludp::RawMemory`: the allocated block and the number of bytes in use. -/
structure RawMemory where
  data : List UInt8
  size : ℕ
  size_le : size ≤ data.length

namespace RawMemory

/-- `RawMemory()`. -/
def empty : RawMemory := ⟨[], 0, Nat.le_refl _⟩

/-- `capacity()`. -/
def capacity (m : RawMemory) : ℕ := m.data.length

/-- The bytes in use. -/
def bytes (m : RawMemory) : List UInt8 := m.data.take m.size

/-- A block that holds exactly the given bytes. -/
def ofBytes (bs : List UInt8) : RawMemory := ⟨bs, bs.length, Nat.le_refl _⟩

/-- The block after `reserve(size)`; a reallocation leaves the bytes `fresh` behind the old ones. -/
def reservedData (m : RawMemory) (size : ℕ) (fresh : ℕ → UInt8) : List UInt8 :=
  if size > m.capacity then m.data ++ (List.range (size - m.capacity)).map fresh else m.data

theorem length_reservedData (m : RawMemory) (size : ℕ) (fresh : ℕ → UInt8) :
    (m.reservedData size fresh).length = max m.capacity size := by
  unfold reservedData
  split_ifs with h
  · rw [List.length_append, List.length_map, List.length_range]
    unfold capacity at h ⊢
    omega
  · unfold capacity at h ⊢
    omega

/-- `reserve(size)`. -/
def reserve (m : RawMemory) (size : ℕ) (fresh : ℕ → UInt8) : RawMemory where
  data := m.reservedData size fresh
  size := m.size
  size_le := by
    rw [length_reservedData]
    exact Nat.le_trans m.size_le (Nat.le_max_left _ _)

/-- `resize(size)`. -/
def resize (m : RawMemory) (size : ℕ) (fresh : ℕ → UInt8) : RawMemory where
  data := (m.reserve size fresh).data
  size := size
  size_le := by
    show size ≤ (m.reservedData size fresh).length
    rw [length_reservedData]
    exact Nat.le_max_right _ _

@[simp] theorem size_resize (m : RawMemory) (size : ℕ) (fresh : ℕ → UInt8) :
    (m.resize size fresh).size = size := rfl

@[simp] theorem length_bytes (m : RawMemory) : m.bytes.length = m.size := by
  rw [bytes, List.length_take]
  exact Nat.min_eq_left m.size_le

@[simp] theorem bytes_ofBytes (bs : List UInt8) : (ofBytes bs).bytes = bs := by
  rw [bytes, ofBytes, List.take_length]

/-- `memcpy(data() + pos, src, n)` within the bytes in use. -/
def write (m : RawMemory) (pos : ℕ) (src : List UInt8) : Except Fault RawMemory :=
  if h : pos + src.length ≤ m.size then
    .ok
      { data := m.data.take pos ++ (src ++ m.data.drop (pos + src.length))
        size := m.size
        size_le := by
          have := m.size_le
          simp only [List.length_append, List.length_take, List.length_drop]
          omega }
  else
    .error .writeOutOfRange

/-- A write in range changes the bytes of its range only. -/
theorem write_eq_ok {m : RawMemory} {pos : ℕ} {src : List UInt8} (h : pos + src.length ≤ m.size) :
    ∃ m', m.write pos src = .ok m' ∧ m'.size = m.size ∧
      m'.data = m.data.take pos ++ (src ++ m.data.drop (pos + src.length)) := by
  unfold write
  rw [dif_pos h]
  exact ⟨_, rfl, rfl, rfl⟩

end RawMemory

/-- `ecaludp::OwningBuffer`: a view of `size` bytes at `offset` into the container that owns
them. -/
structure OwningBuffer where
  owningContainer : RawMemory
  offset : ℕ
  size : ℕ
  inBounds : offset + size ≤ owningContainer.size

namespace OwningBuffer

/-- The bytes of the view. -/
def bytes (b : OwningBuffer) : List UInt8 := (b.owningContainer.data.drop b.offset).take b.size

@[simp] theorem length_bytes (b : OwningBuffer) : b.bytes.length = b.size := by
  have h₁ := b.inBounds
  have h₂ := b.owningContainer.size_le
  rw [bytes, List.length_take, List.length_drop]
  omega

theorem bytes_eq (b : OwningBuffer) :
    b.bytes = (b.owningContainer.bytes.drop b.offset).take b.size := by
  have h := b.inBounds
  rw [bytes, RawMemory.bytes, List.drop_take, List.take_take, Nat.min_eq_left (by omega)]

/-- The view of all bytes in use. -/
def ofRawMemory (m : RawMemory) : OwningBuffer := ⟨m, 0, m.size, by omega⟩

@[simp] theorem bytes_ofRawMemory (m : RawMemory) : (ofRawMemory m).bytes = m.bytes := rfl

end OwningBuffer

end Ecaludp
