import Mathlib
import Ecaludp.Header
import Ecaludp.Lib.While

/-!
# Building version 5 datagrams

`createDatagramList` cuts a message, given as a sequence of buffers, into datagrams. A datagram is
described by its header buffer and the list of memory areas that a send gathers; `serialise` is
what the receiver gets. The generator of message ids is a global of the source; its state comes in
and goes out.

`size_t` has 64 bits and `int` 32 bits.
-/

namespace Ecaludp

open ByteOrder

/-! ## Datagram descriptions -/

/-- An entry of `asio_buffer_list_`: the datagram's own header buffer or an area of a user
buffer. -/
inductive AsioBuffer where
  | headerBuffer
  | userBuffer (bytes : List UInt8)

/-- `AsioBuffer::size()`; a header buffer is as large as a header. -/
def AsioBuffer.size : AsioBuffer → ℕ
  | headerBuffer => sizeofHeader
  | userBuffer bytes => bytes.length

/-- `DatagramDescription`; the header buffer is viewed as the header it holds. -/
structure DatagramDescription where
  header : Header := Header.zero
  asioBufferList : List AsioBuffer := []

namespace DatagramDescription

/-- `size()`. -/
def size (d : DatagramDescription) : ℕ := (d.asioBufferList.map AsioBuffer.size).sum

/-- The bytes that a send gathers. -/
def serialise (host : ByteOrder) (d : DatagramDescription) : List UInt8 :=
  d.asioBufferList.flatMap fun buffer =>
    match buffer with
    | .headerBuffer => d.header.store host
    | .userBuffer bytes => bytes

end DatagramDescription

abbrev DatagramList := List DatagramDescription

namespace DatagramList

/-- `back()`. -/
def back (l : DatagramList) : DatagramDescription := l.getLastD {}

/-- Change the last element. -/
def modifyBack (f : DatagramDescription → DatagramDescription) (l : DatagramList) : DatagramList :=
  l.dropLast ++ [f (back l)]

@[simp] theorem back_append (l : DatagramList) (d : DatagramDescription) : back (l ++ [d]) = d := by
  rw [back, List.getLastD_concat]

@[simp] theorem modifyBack_append (f : DatagramDescription → DatagramDescription) (l : DatagramList)
    (d : DatagramDescription) : modifyBack f (l ++ [d]) = l ++ [f d] := by
  rw [modifyBack, back_append, List.dropLast_concat]

end DatagramList

/-! ## Message ids -/

/-- The state of the id generator. -/
structure Xorshf96 where
  x : UInt32
  y : UInt32
  z : UInt32
  deriving DecidableEq

/-- `xorshf96`. -/
def xorshf96 (s : Xorshf96) : UInt32 × Xorshf96 :=
  let x := s.x ^^^ (s.x <<< 16)
  let x := x ^^^ (x >>> 5)
  let x := x ^^^ (x <<< 1)
  let t := x
  let x := s.y
  let y := s.z
  let z := (t ^^^ x) ^^^ y
  (z, ⟨x, y, z⟩)

/-! ## Building -/

/-- What keeps the builder from returning a list: the exception it throws, an operation without a
defined result, or a loop that does not end. -/
inductive BuildError where
  | invalidArgument (what : String)
  | signedOverflow
  | divisionByZero
  | nontermination
  deriving DecidableEq, Repr

section Build

variable (host : ByteOrder) (bufferSequence : List (List UInt8)) (maxDatagramSize : ℕ)
  (magicHeaderBytes : Magic)

/-- The sum of all buffer sizes in `uint32_t` arithmetic. -/
def totalSize32 : UInt32 :=
  bufferSequence.foldl (fun total buffer => total + UInt32.ofNat buffer.length) 0

/-- The sum of all buffer sizes in `size_t` arithmetic. -/
def totalSize64 : UInt64 :=
  bufferSequence.foldl (fun total buffer => total + UInt64.ofNat buffer.length) 0

/-- The header that all three kinds of datagrams start with. -/
def fillHeader (type : DatagramType) (id num len : UInt32) : Header :=
  { Header.zero with
    magic := magicHeaderBytes
    version := 5
    type := host.htole32 type.toUInt32
    id := (host.htole32 id).toInt32
    num := host.htole32 num
    len := host.htole32 len }

/-- `create_non_fragmented_datagram`; the id is `int32_t(-1)`. -/
def createNonFragmentedDatagram : DatagramDescription where
  header := fillHeader host magicHeaderBytes .nonFragmentedMessage (-1 : Int32).toUInt32 1
    (totalSize32 bufferSequence)
  asioBufferList := .headerBuffer :: bufferSequence.map .userBuffer

/-- `payload_bytes_per_datagram`: the maximum size as an `int`, minus the size of a header. -/
def payloadBytesPerDatagram : Int32 := (UInt32.ofNat maxDatagramSize - 24).toInt32

/-- `needed_fragment_count`. -/
def neededFragmentCount (totalSize : UInt32) (payload : Int32) : Except BuildError UInt32 :=
  if payload = Int32.minValue then .error .signedOverflow
  else if payload = 0 then .error .divisionByZero
  else .ok ((totalSize + (payload - 1).toUInt32) / payload.toUInt32)

/-- The state of the fragmentation loop. -/
structure FragmentLoop where
  datagramList : DatagramList
  bufferIndex : ℕ := 0
  offsetInCurrentBuffer : ℕ := 0

/-- The condition of the fragmentation loop; the size minus one is a `size_t`. -/
def fragmentLoopCondition (s : FragmentLoop) : Bool :=
  decide (s.bufferIndex < bufferSequence.length) ||
    (s.bufferIndex == (bufferSequence.length + 2 ^ 64 - 1) % 2 ^ 64 &&
      decide (s.offsetInCurrentBuffer < (bufferSequence.getD s.bufferIndex []).length))

/-- A new fragment without payload. -/
def newFragment (messageId num : UInt32) : DatagramDescription where
  header := fillHeader host magicHeaderBytes .fragment messageId num 0
  asioBufferList := [.headerBuffer]

/-- Append an area of a user buffer to a datagram and increase the length in its header. -/
def addUserBuffer (bytes : List UInt8) (d : DatagramDescription) : DatagramDescription where
  header :=
    { d.header with
      len := host.htole32 (host.le32toh d.header.len + UInt32.ofNat bytes.length) }
  asioBufferList := d.asioBufferList ++ [.userBuffer bytes]

/-- The body of the fragmentation loop. The last datagram is smaller than the maximum size when the
bytes that fit in it are computed, and the offset is inside the buffer, so that neither difference
wraps. -/
def fragmentLoopBody (messageId : UInt32) (s : FragmentLoop) : FragmentLoop :=
  let datagramList :=
    if s.datagramList.length ≤ 1 || maxDatagramSize ≤ s.datagramList.back.size then
      s.datagramList ++
        [newFragment host magicHeaderBytes messageId (UInt32.ofNat (s.datagramList.length + 1 - 2))]
    else
      s.datagramList
  let buffer := bufferSequence.getD s.bufferIndex []
  let bytesToFitInCurrentDatagram :=
    min (maxDatagramSize - datagramList.back.size) (buffer.length - s.offsetInCurrentBuffer)
  let datagramList := datagramList.modifyBack (addUserBuffer host
    ((buffer.drop s.offsetInCurrentBuffer).take bytesToFitInCurrentDatagram))
  let offset := s.offsetInCurrentBuffer + bytesToFitInCurrentDatagram
  if offset ≥ buffer.length then ⟨datagramList, s.bufferIndex + 1, 0⟩
  else ⟨datagramList, s.bufferIndex, offset⟩

/-- The datagram with the fragmentation info. -/
def fragmentInfoDatagram (messageId num len : UInt32) : DatagramDescription where
  header := fillHeader host magicHeaderBytes .fragmentedMessageInfo messageId num len
  asioBufferList := [.headerBuffer]

/-- `create_fragmented_datagram_list`. The loop gets one iteration for each byte. -/
def createFragmentedDatagramList (rng : Xorshf96) :
    Except BuildError (DatagramList × Xorshf96) := do
  let totalSize := totalSize32 bufferSequence
  let neededFragmentCount ← neededFragmentCount totalSize (payloadBytesPerDatagram maxDatagramSize)
  let (messageId, rng) := xorshf96 rng
  let datagramList :=
    [fragmentInfoDatagram host magicHeaderBytes messageId neededFragmentCount totalSize]
  match While.run (fragmentLoopCondition bufferSequence)
      (fragmentLoopBody host bufferSequence maxDatagramSize magicHeaderBytes messageId)
      (bufferSequence.map List.length).sum { datagramList := datagramList } with
  | some s => return (s.datagramList, rng)
  | none => throw .nontermination

/-- `create_datagram_list`. -/
def createDatagramList (rng : Xorshf96) : Except BuildError (DatagramList × Xorshf96) :=
  if maxDatagramSize ≤ sizeofHeader then
    .error (.invalidArgument "max_datagram_size is too small")
  else
    let bufferSequenceWithoutZeroSizedBuffers :=
      bufferSequence.filter fun buffer => 0 < buffer.length
    if (totalSize64 bufferSequenceWithoutZeroSizedBuffers + 24).toNat ≤ maxDatagramSize then
      .ok ([createNonFragmentedDatagram host bufferSequenceWithoutZeroSizedBuffers
        magicHeaderBytes], rng)
    else
      createFragmentedDatagramList host bufferSequenceWithoutZeroSizedBuffers maxDatagramSize
        magicHeaderBytes rng

end Build

end Ecaludp
