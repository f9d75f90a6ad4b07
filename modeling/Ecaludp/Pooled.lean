import Ecaludp.Socket.ReceiveFrom

/-!
# Sockets with pooled buffers

The buffers of a socket come from two `recycle::shared_pool`s: one for each datagram, one for each
message that is put together. A fragment stays in the buffer that it was received into, a message in
one datagram is handed to the user there, and a buffer goes back to its pool when nothing points to
it any more, to be handed out again with its old memory.

Here every buffer has an address and views are addresses (`BufferView`), so that a buffer that is
handed out too early is overwritten under its views. The pools are not part of the repository: which
addresses they hand out comes in with the events, and `Event.Fresh` is what they promise.
-/

namespace Ecaludp

open ByteOrder

/-- The place of a `RawMemory` object. -/
abbrev Address := ℕ

/-- All `RawMemory` objects, those that wait in the pools included. -/
abbrev Heap := Address → RawMemory

/-- A `shared_ptr<OwningBuffer>`: a view, and the object that it keeps out of the pool. -/
structure BufferView where
  owningContainer : Address
  offset : ℕ
  size : ℕ

/-- The bytes that are found at `data()`. -/
def BufferView.bytes (heap : Heap) (b : BufferView) : List UInt8 :=
  ((heap b.owningContainer).data.drop b.offset).take b.size

/-- `fragmented_package`, with its fragments as pointers. -/
structure PooledPackage where
  info : FragmentedPackageInfo := {}
  fragments : List (Option BufferView) := []

abbrev PooledPackages (E : Type) [LinearOrder E] :=
  Std.ExtTreeMap (FragmentedPackageKey E) PooledPackage

/-- What a call takes from its surroundings: the reading of the clock, the address that
`largepackage_buffer_pool_` hands out, and the bytes that growing this buffer adds. -/
structure PooledEnv where
  now : TimePoint
  largepackageBuffer : Address
  fresh : ℕ → UInt8

/-- The result of a handler: the memory and the map it leaves, the pointer it returns and the error
it sets. -/
abbrev PooledResult (E : Type) [LinearOrder E] :=
  Heap × PooledPackages E × Option BufferView × Error

namespace Pooled

open Reassembly (bytesAvailable)

/-! ## Completion -/

/-- `*fragment`. -/
def derefFragment : Option BufferView → Except Fault BufferView
  | some fragment => .ok fragment
  | none => .error .nullFragment

def cummulatedPackageSizes (fragments : List (Option BufferView)) : Except Fault ℕ :=
  fragments.foldlM (fun cummulated fragment => do
    let fragment ← derefFragment fragment
    return cummulated + fragment.size) 0

/-- One iteration of the copy loop: the `memcpy` reads and writes one memory. -/
def copyFragment (reassembledBuffer : Address) (target : Heap × ℕ) (fragment : Option BufferView) :
    Except Fault (Heap × ℕ) := do
  let fragment ← derefFragment fragment
  let memory ← (target.1 reassembledBuffer).write target.2 (fragment.bytes target.1)
  return (Function.update target.1 reassembledBuffer memory, target.2 + fragment.size)

/-- `reassemble_package`. -/
def reassemblePackage (env : PooledEnv) (heap : Heap) (package : PooledPackage) :
    Except Fault (Heap × BufferView) := do
  let reassembledBuffer := env.largepackageBuffer
  let heap := Function.update heap reassembledBuffer
    ((heap reassembledBuffer).resize package.info.totalSizeBytes.toNat env.fresh)
  let copied ← package.fragments.foldlM (copyFragment reassembledBuffer) (heap, 0)
  return (copied.1, ⟨reassembledBuffer, 0, (copied.1 reassembledBuffer).size⟩)

variable {E : Type} [LinearOrder E]

/-- `handle_fragmented_package_if_complete`. -/
def handleFragmentedPackageIfComplete (env : PooledEnv) (heap : Heap)
    (packageKey : FragmentedPackageKey E) (package : PooledPackage) (error : Error)
    (packages : PooledPackages E) : Except Fault (PooledResult E) :=
  if !package.info.fragmentInfoReceived
      || !(package.info.receivedFragments == package.info.totalFragments) then
    .ok (heap, packages, none, error.assign .ok)
  else do
    let cummulated ← cummulatedPackageSizes package.fragments
    if cummulated ≠ package.info.totalSizeBytes.toNat then
      return (heap, packages.erase packageKey, none,
        ⟨.malformedReassembledMessage, "Size error. Should be "
          ++ toString package.info.totalSizeBytes ++ " bytes, but received "
          ++ toString cummulated ++ "bytes."⟩)
    else
      let (heap, reassembledBuffer) ← reassemblePackage env heap package
      return (heap, packages.erase packageKey, some reassembledBuffer, error.assign .ok)

/-! ## Handlers -/

section Handlers

variable (host : ByteOrder) (env : PooledEnv) (heap : Heap) (buffer : Address) (senderEndpoint : E)
  (error : Error) (packages : PooledPackages E)

/-- `handle_datagram_fragmented_message_info`. -/
def handleDatagramFragmentedMessageInfo : Except Fault (PooledResult E) :=
  let header := Header.load host (heap buffer).data
  let packageId := (host.le32toh header.id.toUInt32).toInt32
  let packageKey : FragmentedPackageKey E := ⟨senderEndpoint, packageId⟩
  let package := packages[packageKey]?.getD {}
  if package.info.fragmentInfoReceived then
    .ok (heap, packages, none, ⟨.duplicateDatagram,
      "Received fragment info for package " ++ toString packageId ++ " twice"⟩)
  else
    let totalFragments := host.le32toh header.num
    let package : PooledPackage :=
      { info :=
          { package.info with
            fragmentInfoReceived := true
            totalFragments := totalFragments
            totalSizeBytes := host.le32toh header.len
            lastAccess := env.now }
        fragments := SlotList.resize package.fragments totalFragments.toNat }
    handleFragmentedPackageIfComplete env heap packageKey package error
      (packages.insert packageKey package)

/-- The pointer to the payload behind the header. -/
def payloadView (size : UInt32) : BufferView := ⟨buffer, sizeofHeader, size.toNat⟩

/-- The part of `handle_datagram_fragment` behind the resizing of the list. -/
def storeFragment (packageKey : FragmentedPackageKey E) (package : PooledPackage)
    (packageNum fragmentSize : UInt32) : Except Fault (PooledResult E) :=
  if packageNum ≥ UInt32.ofNat package.fragments.length then
    .ok (heap, packages, none, ⟨.malformedDatagram, "Fragment number " ++ toString packageNum
      ++ " is invalid. Should be smaller than " ++ toString package.fragments.length⟩)
  else
    match package.fragments[packageNum.toNat]? with
    | none => .error .fragmentOutOfRange
    | some (some _) =>
      .ok (heap, packages, none, ⟨.duplicateDatagram, "Fragment " ++ toString packageNum
        ++ " for package " ++ toString packageKey.id⟩)
    | some none =>
      if fragmentSize > bytesAvailable (heap buffer) then
        .ok (heap, packages, none, ⟨.malformedDatagram, "Faulty size of fragment. Should be "
          ++ toString fragmentSize ++ ", but only " ++ toString (bytesAvailable (heap buffer))
          ++ " bytes availabe."⟩)
      else
        let fragmentBufferView := payloadView buffer fragmentSize
        let package : PooledPackage :=
          { info :=
              { package.info with
                receivedFragments := package.info.receivedFragments + 1
                lastAccess := env.now }
            fragments := package.fragments.set packageNum.toNat (some fragmentBufferView) }
        handleFragmentedPackageIfComplete env heap packageKey package error
          (packages.insert packageKey package)

/-- `handle_datagram_fragment`. -/
def handleDatagramFragment : Except Fault (PooledResult E) :=
  let header := Header.load host (heap buffer).data
  let packageId := (host.le32toh header.id.toUInt32).toInt32
  let packageKey : FragmentedPackageKey E := ⟨senderEndpoint, packageId⟩
  let package := packages[packageKey]?.getD {}
  let packageNum := host.le32toh header.num
  let fragments :=
    if !package.info.fragmentInfoReceived then
      SlotList.resize package.fragments (max package.fragments.length (packageNum + 1).toNat)
    else
      package.fragments
  let package : PooledPackage := { package with fragments := fragments }
  storeFragment env heap buffer error (packages.insert packageKey package) packageKey
    package packageNum (host.le32toh header.len)

/-- `handle_datagram_non_fragmented_message`: the message is a view into the datagram. -/
def handleDatagramNonFragmentedMessage : Except Fault (PooledResult E) :=
  let header := Header.load host (heap buffer).data
  let payloadSize := host.le32toh header.len
  if payloadSize > bytesAvailable (heap buffer) then
    .ok (heap, packages, none, ⟨.malformedDatagram, "Faulty size of datagram. Should be "
      ++ toString payloadSize ++ ", but only " ++ toString (bytesAvailable (heap buffer))
      ++ " bytes availabe."⟩)
  else
    .ok (heap, packages, some (payloadView buffer payloadSize), error.assign .ok)

/-- `Reassembly::handle_datagram`. -/
def reassemblyHandleDatagram : Except Fault (PooledResult E) :=
  if (heap buffer).size < sizeofHeader then
    .ok (heap, packages, none, ⟨.malformedDatagram,
      "Datagram too small, cannot contain V5 header. Size is " ++ toString (heap buffer).size
        ++ " bytes."⟩)
  else
    let header := Header.load host (heap buffer).data
    if host.le32toh header.type = DatagramType.fragmentedMessageInfo.toUInt32 then
      handleDatagramFragmentedMessageInfo host env heap buffer senderEndpoint error packages
    else if host.le32toh header.type = DatagramType.fragment.toUInt32 then
      handleDatagramFragment host env heap buffer senderEndpoint error packages
    else if host.le32toh header.type = DatagramType.nonFragmentedMessage.toUInt32 then
      handleDatagramNonFragmentedMessage host heap buffer error packages
    else
      .ok (heap, packages, none, ⟨.malformedDatagram, "Invalid type"⟩)

end Handlers

/-- `remove_old_packages`. -/
def removeOldPackages (maxAge : TimePoint) (packages : PooledPackages E) : PooledPackages E :=
  packages.toList.foldl (fun packages it =>
    if it.2.info.lastAccess < maxAge then packages.erase it.1 else packages) packages

/-- `Socket::handle_datagram`, which `SocketNpcap` repeats. -/
def handleDatagram (host : ByteOrder) (settings : SocketSettings) (pruneNow : TimePoint)
    (env : PooledEnv) (heap : Heap) (buffer : Address) (senderEndpoint : E) (error : Error)
    (packages : PooledPackages E) : Except Fault (PooledResult E) :=
  let packages := removeOldPackages (pruneNow - settings.maxReassemblyAge) packages
  if (heap buffer).size < sizeofHeaderCommon then
    .ok (heap, packages, none, ⟨.malformedDatagram, "Datagram too small to contain common header ("
      ++ toString (heap buffer).size ++ " bytes)"⟩)
  else
    let header := HeaderCommon.load (heap buffer).data
    if CString.strncmp 4 header.magic.toList settings.magicHeaderBytes.toList ≠ 0 then
      .ok (heap, packages, none, ⟨.malformedDatagram, "Wrong magic bytes"⟩)
    else do
      let (heap, packages, finishedPackage, error) ←
        if header.version = 5 then
          reassemblyHandleDatagram host env heap buffer senderEndpoint error packages
        else if header.version = 6 then
          .ok (heap, packages, none, ⟨.unsupportedProtocolVersion, toString header.version⟩)
        else
          .ok (heap, packages, none, ⟨.unsupportedProtocolVersion, toString header.version⟩)
      return (heap, packages, if error.toBool then none else finishedPackage, error)

/-! ## Runs -/

/-- The memory, the packages, the buffers that the receive operations under way write to, and the
messages that the user has not let go of. -/
structure State (E : Type) [LinearOrder E] where
  heap : Heap
  packages : PooledPackages E
  operations : List Address
  messages : List BufferView

/-- A new socket; the buffers hold what they hold. -/
def State.init (heap : Heap) : State E := ⟨heap, ∅, [], []⟩

/-- What happens to a socket. The operations and the messages are numbered by their places in the
state. -/
inductive Event (E : Type) where
  /-- A receive operation begins, with the two buffers that `datagram_buffer_pool_` hands out. -/
  | receive (datagramBuffer buffer : Address) (fresh fresh' : ℕ → UInt8)
  /-- It ends with an error or, after a shutdown, with nothing from nobody. -/
  | error (operation : ℕ)
  /-- It ends with a datagram. -/
  | datagram (operation : ℕ) (bytes : List UInt8) (length_le : bytes.length ≤ maxUdpDatagramSize)
    (senderEndpoint : E) (fresh : ℕ → UInt8) (pruneNow : TimePoint) (env : PooledEnv)
  /-- The user lets go of a message. -/
  | release (message : ℕ)

/-- What the caller of `handle_datagram` gets. -/
def outcome (result : PooledResult E) : Reassembly.Outcome :=
  ⟨result.2.2.1.map (BufferView.bytes result.1), result.2.2.2.errorCode⟩

/-- One event. -/
def step (host : ByteOrder) (settings : SocketSettings) (s : State E) :
    Event E → Except Fault (State E × Option Reassembly.Outcome)
  | .receive datagramBuffer buffer fresh fresh' =>
    -- the first of the two buffers is never used
    let heap := Function.update s.heap datagramBuffer
      ((s.heap datagramBuffer).resize maxUdpDatagramSize fresh)
    let heap := Function.update heap buffer ((heap buffer).resize maxUdpDatagramSize fresh')
    .ok ({ s with heap := heap, operations := s.operations ++ [buffer] }, none)
  | .error operation => .ok ({ s with operations := s.operations.eraseIdx operation }, none)
  | .datagram operation bytes _ senderEndpoint fresh pruneNow env =>
    match s.operations[operation]? with
    | none => .ok (s, none)
    | some buffer => do
      let memory ← (s.heap buffer).write 0 bytes
      let heap := Function.update s.heap buffer (memory.resize bytes.length fresh)
      let result ← handleDatagram host settings pruneNow env heap buffer senderEndpoint
        ⟨.genericError, ""⟩ s.packages
      return (⟨result.1, result.2.1, s.operations.eraseIdx operation,
        s.messages ++ result.2.2.1.toList⟩, some (outcome result))
  | .release message => .ok ({ s with messages := s.messages.eraseIdx message }, none)

/-! ## The promise of the pools -/

/-- A fragment in the map. -/
def Stored (packages : PooledPackages E) (b : BufferView) : Prop :=
  ∃ (key : FragmentedPackageKey E) (p : PooledPackage),
    packages[key]? = some p ∧ some b ∈ p.fragments

/-- A view that is stored or held by the user. -/
def State.Views (s : State E) (b : BufferView) : Prop := Stored s.packages b ∨ b ∈ s.messages

/-- A buffer that something points to. -/
def State.InUse (s : State E) (a : Address) : Prop :=
  a ∈ s.operations ∨ ∃ b, s.Views b ∧ b.owningContainer = a

/-- `allocate()` hands out buffers that nothing points to. -/
def Event.Fresh (s : State E) : Event E → Prop
  | .receive datagramBuffer buffer _ _ =>
    ¬ s.InUse datagramBuffer ∧ ¬ s.InUse buffer ∧ datagramBuffer ≠ buffer
  | .datagram _ _ _ _ _ _ env => ¬ s.InUse env.largepackageBuffer
  | _ => True

end Pooled

end Ecaludp
