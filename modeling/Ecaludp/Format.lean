import Ecaludp.Header
import Ecaludp.Lib.CString

/-!
# The wire format

`Datagram` is what a datagram says, and `Datagram.Encoded` which bytes say it. Behind magic and
version there are reserved bytes, fields that the type has no use for, and bytes behind the payload:
a receiver ignores them, and builders write zeros there or nothing at all. `Datagram.parse` reads
the bytes back (`parse_eq_some_iff`).
-/

namespace Ecaludp

open ByteOrder

/-- What a datagram says. -/
inductive Datagram where
  | fragmentedMessageInfo (id : Int32) (num len : UInt32)
  | fragment (id : Int32) (num : UInt32) (payload : List UInt8)
  | nonFragmentedMessage (payload : List UInt8)
  deriving DecidableEq

/-- The magics are the same C string. -/
def Magic.Matches (magic magic' : Magic) : Prop :=
  CString.ofArray magic.toList = CString.ofArray magic'.toList

instance (magic magic' : Magic) : Decidable (magic.Matches magic') :=
  inferInstanceAs (Decidable (_ = _))

/-- The 24 bytes of a header of version 5 with any type and reserved bytes. -/
def headerBytes (magic : Magic) (reserved : Vector UInt8 3) (type : UInt32) (id : Int32)
    (num len : UInt32) :
    List UInt8 :=
  magic.toList ++ (5 :: reserved.toList ++
    (wordBytes type ++ (wordBytes id.toUInt32 ++ (wordBytes num ++ wordBytes len))))

namespace Datagram

/-- The format: the bytes are one of the datagrams for a socket with this magic that say `d`. No
message has a fragment with the largest number, as no info could announce as many fragments. -/
inductive Encoded (magic : Magic) : Datagram → List UInt8 → Prop
  | fragmentedMessageInfo {magic' : Magic} (hmagic : magic'.Matches magic)
      (reserved : Vector UInt8 3) (id : Int32) (num len : UInt32) (rest : List UInt8) :
      Encoded magic (.fragmentedMessageInfo id num len)
        (headerBytes magic' reserved DatagramType.fragmentedMessageInfo.toUInt32 id num len ++ rest)
  | fragment {magic' : Magic} (hmagic : magic'.Matches magic)
      (reserved : Vector UInt8 3) (id : Int32)
      (num len : UInt32) (hnum : num.toNat + 1 < 2 ^ 32) (payload : List UInt8)
      (hlen : payload.length = len.toNat) (rest : List UInt8) :
      Encoded magic (.fragment id num payload)
        (headerBytes magic' reserved DatagramType.fragment.toUInt32 id num len ++ (payload ++ rest))
  | nonFragmentedMessage {magic' : Magic} (hmagic : magic'.Matches magic)
      (reserved : Vector UInt8 3) (id : Int32)
      (num len : UInt32) (payload : List UInt8) (hlen : payload.length = len.toNat)
      (rest : List UInt8) :
      Encoded magic (.nonFragmentedMessage payload)
        (headerBytes magic' reserved DatagramType.nonFragmentedMessage.toUInt32 id num len ++
          (payload ++ rest))

theorem Encoded.num_lt {magic : Magic} {bytes : List UInt8} {id : Int32} {num : UInt32}
    {payload : List UInt8}
    (h : Encoded magic (.fragment id num payload) bytes) : num.toNat + 1 < 2 ^ 32 := by
  cases h
  assumption

/-- The content behind the common header, read off its fields and what follows it. -/
def parseContent (type : UInt32) (id : Int32) (num len : UInt32) (content : List UInt8) :
    Option Datagram :=
  if type = DatagramType.fragmentedMessageInfo.toUInt32 then
    some (.fragmentedMessageInfo id num len)
  else if content.length < len.toNat then none
  else if type = DatagramType.fragment.toUInt32 then
    if num.toNat + 1 < 2 ^ 32 then some (.fragment id num (content.take len.toNat)) else none
  else if type = DatagramType.nonFragmentedMessage.toUInt32 then
    some (.nonFragmentedMessage (content.take len.toNat))
  else none

/-- What the bytes say to a socket with this magic. -/
def parse (magic : Magic) (bytes : List UInt8) : Option Datagram :=
  if sizeofHeader ≤ bytes.length ∧ (magicAt bytes).Matches magic ∧ byteAt bytes 4 = 5 then
    parseContent (wordAt bytes 8) (wordAt bytes 12).toInt32 (wordAt bytes 16) (wordAt bytes 20)
      (bytes.drop sizeofHeader)
  else none

/-! ## Reading a header -/

section Read

variable (magic : Magic) (reserved : Vector UInt8 3) (type : UInt32) (id : Int32) (num len : UInt32)
  (content : List UInt8)

theorem parse_headerBytes (magic' : Magic) :
    parse magic (headerBytes magic' reserved type id num len ++ content) =
      if magic'.Matches magic then parseContent type id num len content else none := by
  obtain ⟨⟨l⟩, hl⟩ := magic'
  obtain ⟨⟨k⟩, hk⟩ := reserved
  match l, hl, k, hk with
  | [a, b, c, d], _, [x, y, z], _ =>
    have htype : wordAt
        (headerBytes #v[a, b, c, d] #v[x, y, z] type id num len ++ content) 8 = type :=
      ofWordBytes_wordBytes type
    have hid : wordAt (headerBytes #v[a, b, c, d] #v[x, y, z] type id num len ++ content)
        12 = id.toUInt32 :=
      ofWordBytes_wordBytes id.toUInt32
    have hnum : wordAt (headerBytes #v[a, b, c, d] #v[x, y, z] type id num len ++ content) 16 =
        num :=
      ofWordBytes_wordBytes num
    have hlen : wordAt (headerBytes #v[a, b, c, d] #v[x, y, z] type id num len ++ content) 20 =
        len :=
      ofWordBytes_wordBytes len
    have hlength : sizeofHeader ≤
        (headerBytes #v[a, b, c, d] #v[x, y, z] type id num len ++ content).length := by
      simp only [headerBytes, sizeofHeader, List.length_append, List.length_cons,
        Vector.length_toList, length_wordBytes]
      omega
    show (if sizeofHeader ≤
        (headerBytes #v[a, b, c, d] #v[x, y, z] type id num len ++ content).length ∧
      Magic.Matches #v[a, b, c, d] magic ∧ (5 : UInt8) = 5 then
        parseContent _ _ _ _ _ else none) = _
    rw [htype, hid, hnum, hlen, Int32.toInt32_toUInt32]
    by_cases hmagic : Magic.Matches #v[a, b, c, d] magic
    · rw [if_pos ⟨hlength, hmagic, rfl⟩]
      exact (if_pos hmagic).symm
    · rw [if_neg fun h => hmagic h.2.1]
      exact (if_neg hmagic).symm

end Read

theorem exists_headerBytes {bytes : List UInt8} (hlength : sizeofHeader ≤ bytes.length)
    (hversion : byteAt bytes 4 = 5) :
    ∃ reserved, bytes = headerBytes (magicAt bytes) reserved (wordAt bytes 8)
      (wordAt bytes 12).toInt32 (wordAt bytes 16) (wordAt bytes 20) ++ bytes.drop sizeofHeader := by
  have hcut : ∀ off, off + 4 ≤ 24 → bytes.drop off =
      [byteAt bytes off, byteAt bytes (off + 1), byteAt bytes (off + 2), byteAt bytes (off + 3)] ++
        bytes.drop (off + 4) := fun off hoff => drop_eq_append (Nat.le_trans hoff hlength)
  have hword : ∀ off, off + 4 ≤ 24 → bytes.drop off = wordBytes (wordAt bytes off) ++
      bytes.drop (off + 4) :=
    fun off hoff => drop_eq_wordBytes_append (Nat.le_trans hoff hlength)
  refine ⟨#v[byteAt bytes 5, byteAt bytes 6, byteAt bytes 7], ?_⟩
  calc bytes = bytes.drop 0 := rfl
    _ = _ := by
      rw [hcut 0 (by omega), hcut 4 (by omega), hword 8 (by omega), hword 12 (by omega),
        hword 16 (by omega), hword 20 (by omega), hversion]
      simp [headerBytes, magicAt]

/-! ## Parsing -/

section Parse

variable {magic magic' : Magic} {type : UInt32} {id : Int32} {num len : UInt32}
    {content : List UInt8}
  {d : Datagram}

theorem encoded_of_parseContent (hmagic : magic'.Matches magic) (reserved : Vector UInt8 3)
    (h : parseContent type id num len content = some d) :
    d.Encoded magic (headerBytes magic' reserved type id num len ++ content) := by
  unfold parseContent at h
  split_ifs at h with hinfo hlen hfragment hnum hmessage
  · cases h
    rw [hinfo]
    exact .fragmentedMessageInfo hmagic reserved id num len content
  all_goals
    have hpayload : (content.take len.toNat).length = len.toNat :=
      List.length_take_of_le (Nat.not_lt.mp hlen)
    cases h
    conv_rhs => rw [← List.take_append_drop len.toNat content]
  · rw [hfragment]
    exact .fragment hmagic reserved id num len hnum _ hpayload _
  · rw [hmessage]
    exact .nonFragmentedMessage hmagic reserved id num len _ hpayload _

theorem parseContent_append {payload : List UInt8} (hlen : payload.length = len.toNat)
    (rest : List UInt8) :
    parseContent DatagramType.fragment.toUInt32 id num len (payload ++ rest) =
        (if num.toNat + 1 < 2 ^ 32 then some (.fragment id num payload) else none) ∧
      parseContent DatagramType.nonFragmentedMessage.toUInt32 id num len (payload ++ rest) =
        some (.nonFragmentedMessage payload) := by
  have hle : ¬ (payload ++ rest).length < len.toNat := by
    rw [List.length_append]
    omega
  unfold parseContent
  constructor
  · rw [if_neg (by decide), if_neg hle, if_pos rfl, List.take_left' hlen]
  · rw [if_neg (by decide), if_neg hle, if_neg (by decide), if_pos rfl, List.take_left' hlen]

/-- Parsing gives what the bytes say, and nothing else. -/
theorem parse_eq_some_iff {bytes : List UInt8} : parse magic bytes = some d ↔
    d.Encoded magic bytes := by
  constructor
  · intro h
    unfold parse at h
    split_ifs at h with hheader
    obtain ⟨hlength, hmagic, hversion⟩ := hheader
    obtain ⟨reserved, hbytes⟩ := exists_headerBytes hlength hversion
    rw [hbytes]
    exact encoded_of_parseContent hmagic reserved h
  · intro h
    cases h with
    | fragmentedMessageInfo hmagic reserved id num len rest =>
      rw [parse_headerBytes, if_pos hmagic]
      rfl
    | fragment hmagic reserved id num len hnum payload hlen rest =>
      rw [parse_headerBytes, if_pos hmagic, (parseContent_append hlen rest).1, if_pos hnum]
    | nonFragmentedMessage hmagic reserved id num len payload hlen rest =>
      rw [parse_headerBytes, if_pos hmagic, (parseContent_append hlen rest).2]

end Parse

end Datagram

end Ecaludp
