import Mathlib

/-!
# 32-bit words in memory

A 32-bit word occupies four bytes of memory, in the order of the host. `store` and `load` are the
memory image of a word on a little- or big-endian host, `htole32` and `le32toh` the conversions
of `<endian.h>`. Converting before a store, or after a load, gives the little-endian image on
every host (`store_htole32`, `le32toh_load`).
-/

/-- The byte order of a host. -/
inductive ByteOrder where
  | littleEndian
  | bigEndian
  deriving DecidableEq, Repr

namespace ByteOrder

/-- The little-endian bytes of a word. -/
def wordBytes (x : UInt32) : List UInt8 :=
  [UInt8.ofNat x.toNat, UInt8.ofNat (x.toNat / 2 ^ 8), UInt8.ofNat (x.toNat / 2 ^ 16),
    UInt8.ofNat (x.toNat / 2 ^ 24)]

/-- The word of four little-endian bytes. -/
def ofWordBytes (b₀ b₁ b₂ b₃ : UInt8) : UInt32 :=
  UInt32.ofNat (b₀.toNat + 2 ^ 8 * b₁.toNat + 2 ^ 16 * b₂.toNat + 2 ^ 24 * b₃.toNat)

/-- The byte at offset `i` of a block of memory. -/
def byteAt (mem : List UInt8) (i : ℕ) : UInt8 := mem.getD i 0

/-- The little-endian word at offset `off`. -/
def wordAt (mem : List UInt8) (off : ℕ) : UInt32 :=
  ofWordBytes (byteAt mem off) (byteAt mem (off + 1)) (byteAt mem (off + 2)) (byteAt mem (off + 3))

/-- A word with its four bytes in the opposite order. -/
def byteSwap (x : UInt32) : UInt32 :=
  ofWordBytes (UInt8.ofNat (x.toNat / 2 ^ 24)) (UInt8.ofNat (x.toNat / 2 ^ 16))
    (UInt8.ofNat (x.toNat / 2 ^ 8)) (UInt8.ofNat x.toNat)

/-- The memory image of a host word. -/
def store : ByteOrder → UInt32 → List UInt8
  | littleEndian, x => wordBytes x
  | bigEndian, x => (wordBytes x).reverse

/-- The host word at offset `off`. -/
def load : ByteOrder → List UInt8 → ℕ → UInt32
  | littleEndian, mem, off => wordAt mem off
  | bigEndian, mem, off =>
    ofWordBytes (byteAt mem (off + 3)) (byteAt mem (off + 2)) (byteAt mem (off + 1))
      (byteAt mem off)

/-- Host to little-endian. -/
def htole32 : ByteOrder → UInt32 → UInt32
  | littleEndian, x => x
  | bigEndian, x => byteSwap x

/-- Little-endian to host. -/
def le32toh : ByteOrder → UInt32 → UInt32
  | littleEndian, x => x
  | bigEndian, x => byteSwap x

/-! ## Words and their bytes -/

theorem toNat_ofWordBytes (b₀ b₁ b₂ b₃ : UInt8) :
    (ofWordBytes b₀ b₁ b₂ b₃).toNat =
      b₀.toNat + 2 ^ 8 * b₁.toNat + 2 ^ 16 * b₂.toNat + 2 ^ 24 * b₃.toNat := by
  have h₀ := b₀.toNat_lt
  have h₁ := b₁.toNat_lt
  have h₂ := b₂.toNat_lt
  have h₃ := b₃.toNat_lt
  rw [ofWordBytes, UInt32.toNat_ofNat', Nat.mod_eq_of_lt]
  omega

theorem ofWordBytes_wordBytes (x : UInt32) :
    ofWordBytes (UInt8.ofNat x.toNat) (UInt8.ofNat (x.toNat / 2 ^ 8))
      (UInt8.ofNat (x.toNat / 2 ^ 16)) (UInt8.ofNat (x.toNat / 2 ^ 24)) = x := by
  have hx := x.toNat_lt
  apply UInt32.toNat_inj.mp
  rw [toNat_ofWordBytes]
  simp only [UInt8.toNat_ofNat']
  omega

theorem wordBytes_ofWordBytes (b₀ b₁ b₂ b₃ : UInt8) :
    wordBytes (ofWordBytes b₀ b₁ b₂ b₃) = [b₀, b₁, b₂, b₃] := by
  have h₀ := b₀.toNat_lt
  have h₁ := b₁.toNat_lt
  have h₂ := b₂.toNat_lt
  have h₃ := b₃.toNat_lt
  unfold wordBytes
  rw [toNat_ofWordBytes]
  simp only [List.cons.injEq, and_true]
  refine ⟨?_, ?_, ?_, ?_⟩ <;> apply UInt8.toNat_inj.mp <;> rw [UInt8.toNat_ofNat'] <;> omega

@[simp] theorem length_wordBytes (x : UInt32) : (wordBytes x).length = 4 := rfl

theorem byteSwap_ofWordBytes (b₀ b₁ b₂ b₃ : UInt8) :
    byteSwap (ofWordBytes b₃ b₂ b₁ b₀) = ofWordBytes b₀ b₁ b₂ b₃ := by
  have h := wordBytes_ofWordBytes b₃ b₂ b₁ b₀
  unfold wordBytes at h
  simp only [List.cons.injEq, and_true] at h
  rw [byteSwap, h.1, h.2.1, h.2.2.1, h.2.2.2]

@[simp] theorem byteSwap_byteSwap (x : UInt32) : byteSwap (byteSwap x) = x := by
  conv_lhs => rw [byteSwap.eq_def x]
  rw [byteSwap_ofWordBytes, ofWordBytes_wordBytes]

/-! ## Conversions -/

/-- A converted word has the little-endian image on every host. -/
theorem store_htole32 (host : ByteOrder) (x : UInt32) :
    host.store (host.htole32 x) = wordBytes x := by
  cases host with
  | littleEndian => rfl
  | bigEndian =>
    show (wordBytes (byteSwap x)).reverse = _
    unfold byteSwap
    rw [wordBytes_ofWordBytes]
    rfl

theorem le32toh_load (host : ByteOrder) (mem : List UInt8) (off : ℕ) :
    host.le32toh (host.load mem off) = wordAt mem off := by
  cases host with
  | littleEndian => rfl
  | bigEndian => exact byteSwap_ofWordBytes _ _ _ _

@[simp] theorem le32toh_htole32 (host : ByteOrder) (x : UInt32) :
    host.le32toh (host.htole32 x) = x := by
  cases host with
  | littleEndian => rfl
  | bigEndian => exact byteSwap_byteSwap x

/-! ## Reading from a concatenation -/

theorem byteAt_append_right (pre mem : List UInt8) {off : ℕ} (h : off = pre.length) (i : ℕ) :
    byteAt (pre ++ mem) (off + i) = byteAt mem i := by
  subst h
  unfold byteAt
  rw [List.getD_append_right _ _ _ _ (by omega), Nat.add_sub_cancel_left]

theorem wordAt_append (pre post : List UInt8) (x : UInt32) {off : ℕ} (h : off = pre.length) :
    wordAt (pre ++ (wordBytes x ++ post)) off = x := by
  have h₀ := byteAt_append_right pre (wordBytes x ++ post) h 0
  rw [Nat.add_zero] at h₀
  unfold wordAt
  rw [h₀, byteAt_append_right _ _ h, byteAt_append_right _ _ h, byteAt_append_right _ _ h]
  exact ofWordBytes_wordBytes x

theorem wordAt_congr {mem mem' : List UInt8} {n off : ℕ} (h : mem.take n = mem'.take n)
    (hoff : off + 4 ≤ n) : wordAt mem off = wordAt mem' off := by
  have key : ∀ i < n, byteAt mem i = byteAt mem' i := by
    intro i hi
    have := congrArg (·[i]?) h
    simp only [List.getElem?_take_of_lt hi] at this
    unfold byteAt
    rw [List.getD_eq_getElem?_getD, List.getD_eq_getElem?_getD, this]
  unfold wordAt
  rw [key _ (by omega), key _ (by omega), key _ (by omega), key _ (by omega)]

theorem drop_eq_append {mem : List UInt8} {off : ℕ} (h : off + 4 ≤ mem.length) :
    mem.drop off =
      [byteAt mem off, byteAt mem (off + 1), byteAt mem (off + 2), byteAt mem (off + 3)] ++
        mem.drop (off + 4) := by
  have hbyte : ∀ i < mem.length, mem.drop i = byteAt mem i :: mem.drop (i + 1) := by
    intro i hi
    rw [byteAt, List.getD_eq_getElem _ _ hi, List.drop_eq_getElem_cons hi]
  rw [hbyte off (by omega), hbyte (off + 1) (by omega), hbyte (off + 2) (by omega),
    hbyte (off + 3) (by omega)]
  rfl

theorem drop_eq_wordBytes_append {mem : List UInt8} {off : ℕ} (h : off + 4 ≤ mem.length) :
    mem.drop off = wordBytes (wordAt mem off) ++ mem.drop (off + 4) := by
  rw [drop_eq_append h, wordAt, wordBytes_ofWordBytes]

end ByteOrder
