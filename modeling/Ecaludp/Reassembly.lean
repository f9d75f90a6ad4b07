import Mathlib
import Ecaludp.Error
import Ecaludp.Memory
import Ecaludp.Header
import Ecaludp.Lib.SlotList
import Ecaludp.Lib.Machine

/-!
# Reassembly of version 5 datagrams

`Reassembly` is the package map of a `v5::Reassembly` object; `handleDatagram` and
`removeOldPackages` are its two operations. The buffer pool keeps nothing the operations depend
on but the memory of the buffers it hands out again: that memory, like the reading of the clock,
comes in with each call (`Env`).

The endpoint type is a parameter: the code orders endpoints and compares them, nothing else.
-/

namespace Ecaludp

open ByteOrder

variable {E : Type}

/-! ## Data model -/

/-- `fragmented_package_key`: the sender and the id of a message. -/
structure FragmentedPackageKey (E : Type) where
  endpoint : E
  id : Int32
  deriving DecidableEq

namespace FragmentedPackageKey

/-- `std::pair` compares its first components, then its second ones. -/
instance [Ord E] : Ord (FragmentedPackageKey E) where
  compare := compareLex (compareOn endpoint) (compareOn id)

instance [LinearOrder E] : Std.TransOrd (FragmentedPackageKey E) :=
  inferInstanceAs (Std.TransCmp (compareLex (compareOn endpoint) (compareOn id)))

instance [LinearOrder E] : Std.LawfulEqOrd (FragmentedPackageKey E) where
  eq_of_compare {a b} h := by
    obtain ⟨e, i⟩ := a
    obtain ⟨e', i'⟩ := b
    have h' : (compare e e').then (compare i i') = .eq := h
    rw [Ordering.then_eq_eq] at h'
    rw [Std.LawfulEqCmp.eq_of_compare h'.1, Std.LawfulEqCmp.eq_of_compare h'.2]

end FragmentedPackageKey

/-- `fragmented_package_info`. -/
structure FragmentedPackageInfo where
  fragmentInfoReceived : Bool := false
  totalFragments : UInt32 := 0
  totalSizeBytes : UInt32 := 0
  receivedFragments : UInt32 := 0
  lastAccess : TimePoint := 0

/-- `fragmented_package`: what is known about a message and its list of fragments. -/
structure FragmentedPackage where
  info : FragmentedPackageInfo := {}
  fragments : List (Option OwningBuffer) := []

/-- The state of a `Reassembly` object: its member `fragmented_packages_`. -/
abbrev Reassembly (E : Type) [LinearOrder E] :=
  Std.ExtTreeMap (FragmentedPackageKey E) FragmentedPackage

/-- What a call takes from its surroundings: the reading of the steady clock, the buffer that the
pool hands out, with the memory of its last use, and the bytes that growing this buffer adds. -/
structure Env where
  now : TimePoint
  pooled : RawMemory
  fresh : ℕ → UInt8

/-- The result of a handler: the map it leaves, the buffer it returns and the error it sets. -/
abbrev HandlerResult (E : Type) [LinearOrder E] := Reassembly E × Option OwningBuffer × Error

namespace Reassembly

/-! ## Completion -/

/-- `*fragment`. -/
def derefFragment : Option OwningBuffer → Except Fault OwningBuffer
  | some fragment => .ok fragment
  | none => .error .nullFragment

/-- The loop that sums the sizes of all fragments. There are less than 2 ^ 32 of them, each of less
than 2 ^ 32 bytes, so the `size_t` does not wrap. -/
def cummulatedPackageSizes (fragments : List (Option OwningBuffer)) : Except Fault ℕ :=
  fragments.foldlM (fun cummulated fragment => do
    let fragment ← derefFragment fragment
    return cummulated + fragment.size) 0

/-- One iteration of the copy loop: the target and `current_pos` in it. -/
def copyFragment (target : RawMemory × ℕ) (fragment : Option OwningBuffer) :
    Except Fault (RawMemory × ℕ) := do
  let fragment ← derefFragment fragment
  let memory ← target.1.write target.2 fragment.bytes
  return (memory, target.2 + fragment.size)

/-- `reassemble_package`. -/
def reassemblePackage (env : Env) (package : FragmentedPackage) : Except Fault OwningBuffer := do
  let reassembledBuffer := env.pooled.resize package.info.totalSizeBytes.toNat env.fresh
  let copied ← package.fragments.foldlM copyFragment (reassembledBuffer, 0)
  return OwningBuffer.ofRawMemory copied.1

variable [LinearOrder E]

/-- `handle_fragmented_package_if_complete`; the iterator points to `package` under `packageKey`. -/
def handleFragmentedPackageIfComplete (env : Env) (packageKey : FragmentedPackageKey E)
    (package : FragmentedPackage) (error : Error) (packages : Reassembly E) :
    Except Fault (HandlerResult E) :=
  if !package.info.fragmentInfoReceived
      || !(package.info.receivedFragments == package.info.totalFragments) then
    .ok (packages, none, error.assign .ok)
  else do
    let cummulated ← cummulatedPackageSizes package.fragments
    if cummulated ≠ package.info.totalSizeBytes.toNat then
      return (packages.erase packageKey, none,
        ⟨.malformedReassembledMessage, "Size error. Should be "
          ++ toString package.info.totalSizeBytes ++ " bytes, but received "
          ++ toString cummulated ++ "bytes."⟩)
    else
      let reassembledBuffer ← reassemblePackage env package
      return (packages.erase packageKey, some reassembledBuffer, error.assign .ok)

/-! ## Handlers -/

section Handlers

variable (host : ByteOrder) (env : Env) (buffer : RawMemory) (senderEndpoint : E) (error : Error)
  (packages : Reassembly E)

/-- `handle_datagram_fragmented_message_info`. -/
def handleDatagramFragmentedMessageInfo : Except Fault (HandlerResult E) :=
  let header := Header.load host buffer.data
  let packageId := (host.le32toh header.id.toUInt32).toInt32
  let packageKey : FragmentedPackageKey E := ⟨senderEndpoint, packageId⟩
  -- a package that is not there yet is emplaced as a default one, which has no fragment info
  let package := packages[packageKey]?.getD {}
  if package.info.fragmentInfoReceived then
    .ok (packages, none, ⟨.duplicateDatagram,
      "Received fragment info for package " ++ toString packageId ++ " twice"⟩)
  else
    let totalFragments := host.le32toh header.num
    let package : FragmentedPackage :=
      { info :=
          { package.info with
            fragmentInfoReceived := true
            totalFragments := totalFragments
            totalSizeBytes := host.le32toh header.len
            lastAccess := env.now }
        fragments := SlotList.resize package.fragments totalFragments.toNat }
    handleFragmentedPackageIfComplete env packageKey package error
      (packages.insert packageKey package)

/-- The number of bytes behind the header, in `unsigned int` arithmetic. -/
def bytesAvailable (buffer : RawMemory) : UInt32 := UInt32.ofNat buffer.size - 24

theorem toNat_bytesAvailable_le {buffer : RawMemory} (h : sizeofHeader ≤ buffer.size) :
    sizeofHeader + (bytesAvailable buffer).toNat ≤ buffer.size := by
  unfold sizeofHeader at h ⊢
  rw [bytesAvailable, UInt32.toNat_sub, UInt32.toNat_ofNat']
  simp only [UInt32.reduceToNat]
  omega

/-- The view of the payload behind the header. -/
def payloadView (buffer : RawMemory) (h : ¬ buffer.size < sizeofHeader) (size : UInt32)
    (hsize : ¬ size > bytesAvailable buffer) : OwningBuffer where
  owningContainer := buffer
  offset := sizeofHeader
  size := size.toNat
  inBounds := by
    have h₁ := toNat_bytesAvailable_le (Nat.not_lt.mp h)
    have h₂ : size.toNat ≤ (bytesAvailable buffer).toNat := UInt32.not_lt.mp hsize
    omega

/-- The part of `handle_datagram_fragment` behind the resizing of the list: the checks, and the
storing of fragment `packageNum` of `fragmentSize` bytes in `package`, the entry of `packageKey`. -/
def storeFragment (hbuffer : ¬ buffer.size < sizeofHeader) (packageKey : FragmentedPackageKey E)
    (package : FragmentedPackage) (packageNum fragmentSize : UInt32) :
    Except Fault (HandlerResult E) :=
  if packageNum ≥ UInt32.ofNat package.fragments.length then
    .ok (packages, none, ⟨.malformedDatagram, "Fragment number " ++ toString packageNum
      ++ " is invalid. Should be smaller than " ++ toString package.fragments.length⟩)
  else
    match package.fragments[packageNum.toNat]? with
    | none => .error .fragmentOutOfRange
    | some (some _) =>
      .ok (packages, none, ⟨.duplicateDatagram, "Fragment " ++ toString packageNum
        ++ " for package " ++ toString packageKey.id⟩)
    | some none =>
      if h : fragmentSize > bytesAvailable buffer then
        .ok (packages, none, ⟨.malformedDatagram, "Faulty size of fragment. Should be "
          ++ toString fragmentSize ++ ", but only " ++ toString (bytesAvailable buffer)
          ++ " bytes availabe."⟩)
      else
        let fragmentBufferView :=
          payloadView buffer hbuffer fragmentSize h
        let package : FragmentedPackage :=
          { info :=
              { package.info with
                receivedFragments := package.info.receivedFragments + 1
                lastAccess := env.now }
            fragments := package.fragments.set packageNum.toNat (some fragmentBufferView) }
        handleFragmentedPackageIfComplete env packageKey package error
          (packages.insert packageKey package)

/-- `handle_datagram_fragment`. -/
def handleDatagramFragment (hbuffer : ¬ buffer.size < sizeofHeader) :
    Except Fault (HandlerResult E) :=
  let header := Header.load host buffer.data
  let packageId := (host.le32toh header.id.toUInt32).toInt32
  let packageKey : FragmentedPackageKey E := ⟨senderEndpoint, packageId⟩
  let package := packages[packageKey]?.getD {}
  let packageNum := host.le32toh header.num
  -- the list grows only as long as the number of fragments is unknown
  let fragments :=
    if !package.info.fragmentInfoReceived then
      SlotList.resize package.fragments (max package.fragments.length (packageNum + 1).toNat)
    else
      package.fragments
  let package : FragmentedPackage := { package with fragments := fragments }
  storeFragment env buffer error (packages.insert packageKey package) hbuffer packageKey package
    packageNum (host.le32toh header.len)

/-- `handle_datagram_non_fragmented_message`. -/
def handleDatagramNonFragmentedMessage (hbuffer : ¬ buffer.size < sizeofHeader) :
    Except Fault (HandlerResult E) :=
  let header := Header.load host buffer.data
  let payloadSize := host.le32toh header.len
  if h : payloadSize > bytesAvailable buffer then
    .ok (packages, none, ⟨.malformedDatagram, "Faulty size of datagram. Should be "
      ++ toString payloadSize ++ ", but only " ++ toString (bytesAvailable buffer)
      ++ " bytes availabe."⟩)
  else
    .ok (packages, some (payloadView buffer hbuffer payloadSize h),
      error.assign .ok)

/-- `Reassembly::handle_datagram`. -/
def handleDatagram : Except Fault (HandlerResult E) :=
  if h : buffer.size < sizeofHeader then
    .ok (packages, none, ⟨.malformedDatagram,
      "Datagram too small, cannot contain V5 header. Size is " ++ toString buffer.size
        ++ " bytes."⟩)
  else
    let header := Header.load host buffer.data
    if host.le32toh header.type = DatagramType.fragmentedMessageInfo.toUInt32 then
      handleDatagramFragmentedMessageInfo host env buffer senderEndpoint error packages
    else if host.le32toh header.type = DatagramType.fragment.toUInt32 then
      handleDatagramFragment host env buffer senderEndpoint error packages h
    else if host.le32toh header.type = DatagramType.nonFragmentedMessage.toUInt32 then
      handleDatagramNonFragmentedMessage host buffer error packages h
    else
      .ok (packages, none, ⟨.malformedDatagram, "Invalid type"⟩)

end Handlers

/-- `remove_old_packages`: the loop visits every entry and erases it when it is too old. -/
def removeOldPackages (maxAge : TimePoint) (packages : Reassembly E) : Reassembly E :=
  packages.toList.foldl (fun packages it =>
    if it.2.info.lastAccess < maxAge then packages.erase it.1 else packages) packages

/-! ## Runs -/

/-- A call of one of the two operations. -/
inductive Call (E : Type) where
  | handleDatagram (env : Env) (buffer : RawMemory) (senderEndpoint : E) (error : Error)
  | removeOldPackages (maxAge : TimePoint)

/-- What the caller of `handle_datagram` gets: the bytes of the returned buffer, if there is one,
and the error code. -/
structure Outcome where
  message : Option (List UInt8)
  errorCode : ErrorCode
  deriving DecidableEq

/-- The observable part of a result. -/
def outcome (result : Option OwningBuffer × Error) : Outcome :=
  ⟨result.1.map OwningBuffer.bytes, result.2.errorCode⟩

/-- One call; `remove_old_packages` returns nothing. -/
def step (host : ByteOrder) (packages : Reassembly E) :
    Call E → Except Fault (Reassembly E × Option Outcome)
  | .handleDatagram env buffer senderEndpoint error =>
    (handleDatagram host env buffer senderEndpoint error packages).map fun r =>
      (r.1, some (outcome r.2))
  | .removeOldPackages maxAge => .ok (packages.removeOldPackages maxAge, none)

end Reassembly

end Ecaludp
