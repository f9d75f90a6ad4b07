import Ecaludp.Reassembly.Entry

/-!
# Reading wire datagrams

A received buffer holds the bytes of a datagram and, behind them, whatever it held before. Its
header is read off the bytes in use (`wordAt_data`), so a buffer with the bytes of a wire datagram
is read as the info or the fragment that was written, stale bytes or not.
-/

namespace Ecaludp

open ByteOrder Reassembly

variable {buffer : RawMemory} {magic : Magic} {id : Int32} {num len : UInt32}
  {payload : List UInt8}

theorem wordAt_data {off : ℕ} (h : off + 4 ≤ buffer.size) :
    wordAt buffer.data off = wordAt buffer.bytes off := by
  refine wordAt_congr (n := buffer.size) ?_ h
  rw [RawMemory.bytes, List.take_take, Nat.min_self]

theorem headerWord (host : ByteOrder) {buffer : RawMemory} (off : ℕ) (h : off + 4 ≤ buffer.size) :
    host.le32toh (host.load buffer.data off) = wordAt buffer.bytes off := by
  rw [le32toh_load, wordAt_data h]

theorem arrivalOf_eq (host : ByteOrder) (hsize : ¬ buffer.size < sizeofHeader) :
    arrivalOf host buffer =
      if wordAt buffer.bytes 8 = DatagramType.fragmentedMessageInfo.toUInt32 then
        some ((wordAt buffer.bytes 12).toInt32,
          .info (wordAt buffer.bytes 16) (wordAt buffer.bytes 20))
      else if wordAt buffer.bytes 8 = DatagramType.fragment.toUInt32 then
        some ((wordAt buffer.bytes 12).toInt32, .fragment (wordAt buffer.bytes 16)
          (if h : wordAt buffer.bytes 20 > bytesAvailable buffer then none
          else some (payloadView buffer hsize _ h)))
      else none := by
  have hle : 24 ≤ buffer.size := Nat.not_lt.mp hsize
  have htype := headerWord host 8 (Nat.le_trans (by omega) hle)
  have hid := headerWord host 12 (Nat.le_trans (by omega) hle)
  have hnum := headerWord host 16 (Nat.le_trans (by omega) hle)
  have hlen := headerWord host 20 (Nat.le_trans (by omega) hle)
  rw [arrivalOf, dif_neg hsize]
  simp only [Header.load, UInt32.toUInt32_toInt32, htype, hid, hnum, hlen]

theorem size_of_bytes {type : DatagramType}
    (h : buffer.bytes = wireHeader magic type id num len ++ payload) :
    buffer.size = sizeofHeader + payload.length := by
  rw [← RawMemory.length_bytes, h, List.length_append, length_wireHeader]

/-- A buffer that holds a wire info is read as that info. -/
theorem arrivalOf_wireInfo (host : ByteOrder)
    (h : buffer.bytes = wireHeader magic .fragmentedMessageInfo id num len ++ payload) :
    arrivalOf host buffer = some (id, .info num len) := by
  have hsize := size_of_bytes h
  rw [arrivalOf_eq host (by omega), h, typeAt_wireHeader, idAt_wireHeader, numAt_wireHeader,
    lenAt_wireHeader, if_pos rfl, Int32.toInt32_toUInt32]

/-- The number of bytes available behind the header is that of the payload, modulo 2 ^ 32. -/
theorem toNat_bytesAvailable {type : DatagramType}
    (h : buffer.bytes = wireHeader magic type id num len ++ payload) :
    (bytesAvailable buffer).toNat = payload.length % 2 ^ 32 := by
  unfold bytesAvailable
  rw [UInt32.toNat_sub, UInt32.toNat_ofNat', size_of_bytes h]
  simp only [UInt32.reduceToNat, sizeofHeader]
  omega

theorem bytes_payloadView {type : DatagramType}
    (h : buffer.bytes = wireHeader magic type id num len ++ payload)
    (hsize : ¬ buffer.size < sizeofHeader) (size : UInt32) (hlen : ¬ size > bytesAvailable buffer) :
    (payloadView buffer hsize size hlen).bytes = payload.take size.toNat := by
  rw [OwningBuffer.bytes_eq]
  show (buffer.bytes.drop sizeofHeader).take size.toNat = _
  rw [h, List.drop_left' (length_wireHeader ..)]

/-- A buffer that holds a wire fragment is read as that fragment; the view is the announced part of
the payload, if that much is there. -/
theorem arrivalOf_wireFragment (host : ByteOrder)
    (h : buffer.bytes = wireHeader magic .fragment id num len ++ payload) :
    ∃ view, arrivalOf host buffer = some (id, .fragment num view) ∧
      (len.toNat ≤ payload.length % 2 ^ 32 → ∃ v, view = some v ∧
        v.size = len.toNat ∧ v.bytes = payload.take len.toNat) := by
  have hsize := size_of_bytes h
  have hsize' : ¬ buffer.size < sizeofHeader := by omega
  have harr := arrivalOf_eq host hsize'
  have hlen : wordAt buffer.bytes 20 = len := by rw [h, lenAt_wireHeader]
  have htype : wordAt buffer.bytes 8 = DatagramType.fragment.toUInt32 := by
    rw [h, typeAt_wireHeader]
  rw [if_neg (by rw [htype]; decide), if_pos htype] at harr
  have hid : (wordAt buffer.bytes 12).toInt32 = id := by
    rw [h, idAt_wireHeader, Int32.toInt32_toUInt32]
  have hnum : wordAt buffer.bytes 16 = num := by rw [h, numAt_wireHeader]
  rw [hid, hnum] at harr
  refine ⟨_, harr, fun hle => ?_⟩
  have hnot : ¬ wordAt buffer.bytes 20 > bytesAvailable buffer := by
    rw [hlen, gt_iff_lt, UInt32.lt_iff_toNat_lt, toNat_bytesAvailable h]
    omega
  rw [dif_neg hnot]
  refine ⟨_, rfl, congrArg UInt32.toNat hlen, ?_⟩
  rw [bytes_payloadView h, hlen]

/-- A buffer that holds an unfragmented wire message is neither info nor fragment; the announced
part of the payload is returned, if that much is there. -/
theorem otherOutcome_wireNonFragmented (host : ByteOrder)
    (h : buffer.bytes = wireHeader magic .nonFragmentedMessage id num len ++ payload)
    (hle : len.toNat ≤ payload.length % 2 ^ 32) :
    arrivalOf host buffer = none ∧
      otherOutcome host buffer = ⟨some (payload.take len.toNat), .ok⟩ := by
  have hsize := size_of_bytes h
  have hsize' : ¬ buffer.size < sizeofHeader := by omega
  have hle' : 24 ≤ buffer.size := Nat.not_lt.mp hsize'
  have htype : host.le32toh (Header.load host buffer.data).type =
      DatagramType.nonFragmentedMessage.toUInt32 :=
    (headerWord host 8 (Nat.le_trans (by omega) hle')).trans (by rw [h, typeAt_wireHeader])
  have hlen : host.le32toh (Header.load host buffer.data).len = len :=
    (headerWord host 20 (Nat.le_trans (by omega) hle')).trans (by rw [h, lenAt_wireHeader])
  constructor
  · rw [arrivalOf_eq host hsize', h, typeAt_wireHeader, if_neg (by decide), if_neg (by decide)]
  · have hnot : ¬ host.le32toh (Header.load host buffer.data).len > bytesAvailable buffer := by
      rw [hlen, gt_iff_lt, UInt32.lt_iff_toNat_lt, toNat_bytesAvailable h]
      omega
    rw [otherOutcome, dif_neg hsize']
    simp only
    rw [if_pos htype, dif_neg hnot, bytes_payloadView h, hlen]

namespace Reassembly

/-- The call hands in a buffer with these bytes, received from this endpoint. -/
def HandsIn {E : Type} (senderEndpoint : E) (call : Call E) (bytes : List UInt8) : Prop :=
  ∃ env buffer error,
    call = .handleDatagram env buffer senderEndpoint error ∧ buffer.bytes = bytes

/-- A call that hands in a fragmentation info for an empty message. -/
def emptyInfoCall {E : Type} (key : FragmentedPackageKey E) (num : UInt32) : Call E :=
  .handleDatagram ⟨0, .empty, fun _ => 0⟩
    (.ofBytes (wireHeader Header.zero.magic .fragmentedMessageInfo key.id num 0))
      key.endpoint ⟨.ok, ""⟩

/-- A call that hands in an empty fragment. -/
def emptyFragmentCall {E : Type} (key : FragmentedPackageKey E) (num : UInt32) : Call E :=
  .handleDatagram ⟨0, .empty, fun _ => 0⟩
    (.ofBytes (wireHeader Header.zero.magic .fragment key.id num 0)) key.endpoint ⟨.ok, ""⟩

theorem arrivalOf_emptyInfo (host : ByteOrder) (id : Int32) (num : UInt32) :
    arrivalOf host (.ofBytes (wireHeader Header.zero.magic .fragmentedMessageInfo id num 0)) =
      some (id, .info num 0) :=
  arrivalOf_wireInfo host
    (show (RawMemory.ofBytes (wireHeader Header.zero.magic .fragmentedMessageInfo id num 0)).bytes =
      _ ++ [] by rw [RawMemory.bytes_ofBytes, List.append_nil])

theorem arrivalOf_emptyFragment (host : ByteOrder) (id : Int32) (num : UInt32) :
    ∃ view, arrivalOf host (.ofBytes (wireHeader Header.zero.magic .fragment id num 0)) =
      some (id, .fragment num (some view)) := by
  obtain ⟨view, harr, hview⟩ := arrivalOf_wireFragment host
    (show (RawMemory.ofBytes (wireHeader Header.zero.magic .fragment id num 0)).bytes = _ ++ [] by
      rw [RawMemory.bytes_ofBytes, List.append_nil])
  obtain ⟨v, rfl, -, -⟩ := hview (Nat.le_refl 0)
  exact ⟨v, harr⟩

end Reassembly

end Ecaludp
