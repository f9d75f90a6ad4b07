import Ecaludp.Reassembly
import Ecaludp.Lib.CString

/-!
# Receiving sockets

What `Socket` and `SocketNpcap` do with a received datagram: they remove the packages that are too
old, check the common header and hand a datagram of version 5 to the reassembly. The source has
the function twice; `handleReceived` is its one text.

The reassembly's `handle_datagram` comes in as an argument, so that one can see whether it is
called (`Reaches`, `Rejects`).
-/

namespace Ecaludp

open Reassembly

variable {E : Type} [LinearOrder E]

/-- The members `magic_header_bytes_` and `max_reassembly_age_` of a socket. -/
structure SocketSettings where
  magicHeaderBytes : Magic
  maxReassemblyAge : Duration := 5000000000

/-- A function with the type of `Reassembly::handle_datagram`. -/
abbrev ReassemblyHandler (E : Type) [LinearOrder E] :=
  Env → RawMemory → E → Error → Reassembly E → Except Fault (HandlerResult E)

/-- A function with the type of a socket's `handle_datagram`; the time is the reading of the clock
for the removal of old packages. -/
abbrev SocketHandler (E : Type) [LinearOrder E] :=
  SocketSettings → TimePoint → ReassemblyHandler E

/-- The common text of the two `handle_datagram` functions. -/
def handleReceived (reassemblyHandler : ReassemblyHandler E) : SocketHandler E :=
  fun settings pruneNow env buffer senderEndpoint error packages =>
    let packages := packages.removeOldPackages (pruneNow - settings.maxReassemblyAge)
    if buffer.size < sizeofHeaderCommon then
      .ok (packages, none, ⟨.malformedDatagram, "Datagram too small to contain common header ("
        ++ toString buffer.size ++ " bytes)"⟩)
    else
      let header := HeaderCommon.load buffer.data
      if CString.strncmp 4 header.magic.toList settings.magicHeaderBytes.toList ≠ 0 then
        .ok (packages, none, ⟨.malformedDatagram, "Wrong magic bytes"⟩)
      else do
        let (packages, finishedPackage, error) ←
          if header.version = 5 then
            reassemblyHandler env buffer senderEndpoint error packages
          else if header.version = 6 then
            .ok (packages, none, ⟨.unsupportedProtocolVersion, toString header.version⟩)
          else
            .ok (packages, none, ⟨.unsupportedProtocolVersion, toString header.version⟩)
        return (packages, if error.toBool then none else finishedPackage, error)

/-- `Socket::handle_datagram`. -/
def Socket.handleDatagram (reassemblyHandler : ReassemblyHandler E) : SocketHandler E :=
  handleReceived reassemblyHandler

/-- `SocketNpcap::handle_datagram`. -/
def SocketNpcap.handleDatagram (reassemblyHandler : ReassemblyHandler E) : SocketHandler E :=
  handleReceived reassemblyHandler

/-! ## Runs -/

/-- A received datagram: the buffer, its sender and what the call takes from its surroundings. -/
structure Receipt (E : Type) where
  pruneNow : TimePoint
  env : Env
  buffer : RawMemory
  senderEndpoint : E
  error : Error

/-- One call of `Socket::handle_datagram`. -/
def Socket.step (host : ByteOrder) (settings : SocketSettings) (packages : Reassembly E)
    (r : Receipt E) : Except Fault (Reassembly E × Outcome) :=
  (Socket.handleDatagram (Reassembly.handleDatagram host) settings r.pruneNow r.env r.buffer
    r.senderEndpoint r.error packages).map fun result => (result.1, outcome result.2)

end Ecaludp
