import Ecaludp.Lib.ByteOrder

/-!
# Datagram headers

The packed `v5::Header` occupies the first 24 bytes of every datagram, `HeaderCommon` the first
five of them. `Header.load` and `Header.store` are the reinterpretations of memory as a header on
a host of either byte order; the 32-bit fields hold little-endian words, so the code converts them
with `htole32` and `le32toh`.
-/

namespace Ecaludp

open ByteOrder

/-- `std::array<char, 4>`: the magic bytes. -/
abbrev Magic := Vector UInt8 4

/-- `sizeof(HeaderCommon)`. -/
abbrev sizeofHeaderCommon : ℕ := 5

/-- `sizeof(v5::Header)`. -/
abbrev sizeofHeader : ℕ := 24

/-- `HeaderCommon`. -/
structure HeaderCommon where
  magic : Magic
  version : UInt8
  deriving DecidableEq

/-- The magic bytes at the start of a block of memory. -/
def magicAt (mem : List UInt8) : Magic := #v[byteAt mem 0, byteAt mem 1, byteAt mem 2, byteAt mem 3]

def HeaderCommon.load (mem : List UInt8) : HeaderCommon := ⟨magicAt mem, byteAt mem 4⟩

/-- The enumerators of `v5::datagram_type_uint32t`. -/
inductive DatagramType where
  | unknown
  | fragmentedMessageInfo
  | fragment
  | nonFragmentedMessage
  deriving DecidableEq, Repr

/-- The underlying value of an enumerator. -/
def DatagramType.toUInt32 : DatagramType → UInt32
  | unknown => 0
  | fragmentedMessageInfo => 1
  | fragment => 2
  | nonFragmentedMessage => 3

/-- `v5::Header`, with the fields as they stand in memory. -/
structure Header where
  magic : Magic
  version : UInt8
  reserved1 : UInt8
  reserved2 : UInt8
  reserved3 : UInt8
  type : UInt32
  id : Int32
  num : UInt32
  len : UInt32
  deriving DecidableEq

namespace Header

/-- The header in a zero-initialised buffer. -/
def zero : Header := ⟨#v[0, 0, 0, 0], 0, 0, 0, 0, 0, 0, 0, 0⟩

/-- A block of memory viewed as a header. -/
def load (host : ByteOrder) (mem : List UInt8) : Header where
  magic := magicAt mem
  version := byteAt mem 4
  reserved1 := byteAt mem 5
  reserved2 := byteAt mem 6
  reserved3 := byteAt mem 7
  type := host.load mem 8
  id := (host.load mem 12).toInt32
  num := host.load mem 16
  len := host.load mem 20

/-- The 24 bytes of a header. -/
def store (host : ByteOrder) (h : Header) : List UInt8 :=
  h.magic.toList ++ ([h.version, h.reserved1, h.reserved2, h.reserved3] ++
    (host.store h.type ++ (host.store h.id.toUInt32 ++ (host.store h.num ++ host.store h.len))))

end Header

/-- The 24 header bytes of the wire format: magic, version 5, three zero bytes, then type, id, num
and len as little-endian words. -/
def wireHeader (magic : Magic) (type : DatagramType) (id : Int32) (num len : UInt32) : List UInt8 :=
  magic.toList ++ ([5, 0, 0, 0] ++
    (wordBytes type.toUInt32 ++ (wordBytes id.toUInt32 ++ (wordBytes num ++ wordBytes len))))

@[simp] theorem length_wireHeader (magic : Magic) (type : DatagramType) (id : Int32)
    (num len : UInt32) : (wireHeader magic type id num len).length = sizeofHeader := by
  simp [wireHeader]

/-- Converted fields are stored as the wire format, whatever the byte order of the host. -/
theorem store_of_htole32 (host : ByteOrder) (magic : Magic) (type : DatagramType) (id : UInt32)
    (num len : UInt32) :
    Header.store host
        { Header.zero with
          magic := magic
          version := 5
          type := host.htole32 type.toUInt32
          id := (host.htole32 id).toInt32
          num := host.htole32 num
          len := host.htole32 len } =
      wireHeader magic type id.toInt32 num len := by
  simp only [Header.store, Header.zero, UInt32.toUInt32_toInt32, store_htole32]
  rfl

/-! ## Reading a wire header -/

section Read

variable (magic : Magic) (type : DatagramType) (id : Int32) (num len : UInt32) (rest : List UInt8)

theorem magicAt_wireHeader : magicAt (wireHeader magic type id num len ++ rest) = magic := by
  obtain ⟨⟨l⟩, hl⟩ := magic
  match l, hl with
  | [a, b, c, d], _ => rfl

theorem versionAt_wireHeader : byteAt (wireHeader magic type id num len ++ rest) 4 = 5 := by
  obtain ⟨⟨l⟩, hl⟩ := magic
  match l, hl with
  | [a, b, c, d], _ => rfl

theorem typeAt_wireHeader :
    wordAt (wireHeader magic type id num len ++ rest) 8 = type.toUInt32 := by
  unfold wireHeader
  rw [← List.append_assoc magic.toList, List.append_assoc _ _ rest, List.append_assoc _ _ rest]
  exact wordAt_append _ _ _ (by simp)

theorem idAt_wireHeader :
    wordAt (wireHeader magic type id num len ++ rest) 12 = id.toUInt32 := by
  unfold wireHeader
  rw [← List.append_assoc magic.toList, ← List.append_assoc _ (wordBytes type.toUInt32),
    List.append_assoc _ _ rest, List.append_assoc _ _ rest]
  exact wordAt_append _ _ _ (by simp)

theorem numAt_wireHeader : wordAt (wireHeader magic type id num len ++ rest) 16 = num := by
  unfold wireHeader
  rw [← List.append_assoc magic.toList, ← List.append_assoc _ (wordBytes type.toUInt32),
    ← List.append_assoc _ (wordBytes id.toUInt32), List.append_assoc _ _ rest,
    List.append_assoc _ _ rest]
  exact wordAt_append _ _ _ (by simp)

theorem lenAt_wireHeader : wordAt (wireHeader magic type id num len ++ rest) 20 = len := by
  unfold wireHeader
  rw [← List.append_assoc magic.toList, ← List.append_assoc _ (wordBytes type.toUInt32),
    ← List.append_assoc _ (wordBytes id.toUInt32), ← List.append_assoc _ (wordBytes num),
    List.append_assoc _ _ rest]
  exact wordAt_append _ _ _ (by simp)

end Read

end Ecaludp
