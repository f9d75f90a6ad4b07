import Ecaludp.Socket
import Ecaludp.AsyncUdpcapSocket
import Ecaludp.Lib.Pull

/-!
# Receive loops

The blocking and the asynchronous receive of `Socket` and of `SocketNpcap`. A blocking call takes
events until one completes a message or is an error. An asynchronous one is a callback: it handles
one event, and if that does not complete a message it arms itself again; so does the user when the
completion handler was called with a message (`Pull.pulled`, `Pull.pushed`).

The type of the error codes of asio is a parameter, and so is the conversion of the addresses of
Udpcap.
-/

namespace Ecaludp

open Reassembly

/-- The size that a buffer gets for the next datagram. -/
abbrev maxUdpDatagramSize : ℕ := 65535

/-- A datagram as it arrives: its bytes and its sender, the buffer that the pool hands out for it,
and what its handling takes from the surroundings. -/
structure ReceivedDatagram (E : Type) where
  bytes : List UInt8
  length_le : bytes.length ≤ maxUdpDatagramSize
  senderEndpoint : E
  pooled : RawMemory
  fresh : ℕ → UInt8
  pruneNow : TimePoint
  env : Env

/-- The buffer is resized, the datagram written to its start, and the buffer resized again. -/
def ReceivedDatagram.receive {E : Type} (d : ReceivedDatagram E) : Except Fault RawMemory := do
  let buffer := d.pooled.resize maxUdpDatagramSize d.fresh
  let buffer ← buffer.write 0 d.bytes
  return buffer.resize d.bytes.length d.fresh

/-- What a receive operation of asio ends with. -/
inductive ReceiveEvent (E Err : Type) where
  | error (ec : Err)
  | datagram (d : ReceivedDatagram E)

/-- What a receive operation of Udpcap ends with: an error, which may be `OK`, and otherwise a
datagram from an address and a port. -/
structure UdpcapEvent (A : Type) where
  udpcapError : UdpcapError
  datagram : ReceivedDatagram (A × UInt16)

/-- What a call returns, or the completion handler gets: the message, if there is one, and the
error, if it is one. -/
structure ReceiveResult (Err : Type) where
  message : Option (List UInt8)
  error : Option Err

/-- A caller goes on until there is no message. -/
def ReceiveResult.stops {Err : Type} (r : ReceiveResult Err) : Bool := r.message.isNone

variable {E : Type} [LinearOrder E] {Err A : Type}

/-- The variable `sender_endpoint` of the caller and the packages of the socket. -/
structure Receiver (E : Type) [LinearOrder E] where
  senderEndpoint : E
  packages : Reassembly E

/-- An `ecaludp::Error` as the caller sees it. -/
def Error.reported (e : Error) : Option Error := if e.toBool then some e else none

/-! ## Socket -/

section Loops

variable (host : ByteOrder) (settings : SocketSettings)

/-- `Socket::receive_from`. -/
def Socket.receiveFrom (defaultEndpoint : E) : Receiver E → List (ReceiveEvent E Err) →
    Except Fault (Receiver E × Option (ReceiveResult Err × List (ReceiveEvent E Err)))
  | s, [] => .ok (s, none)
  | s, .error ec :: events => .ok (s, some (⟨none, some ec⟩, events))
  | s, .datagram d :: events =>
    -- nothing from nobody: the socket was shut down
    if d.bytes.length = 0 ∧ d.senderEndpoint = defaultEndpoint then
      .ok (s, some (⟨none, none⟩, events))
    else do
      let buffer ← d.receive
      let (packages, completedPackage, _) ←
        Socket.handleDatagram (Reassembly.handleDatagram host) settings d.pruneNow d.env buffer
          d.senderEndpoint ⟨.genericError, ""⟩ s.packages
      match completedPackage with
      | some package =>
        return (⟨d.senderEndpoint, packages⟩, some (⟨some package.bytes, none⟩, events))
      | none => Socket.receiveFrom defaultEndpoint { s with packages := packages } events

/-- The callback of `Socket::receive_next_datagram_from`. -/
def Socket.receiveNextDatagramFrom (s : Receiver E) :
    ReceiveEvent E Err → Except Fault (Receiver E × Option (ReceiveResult Err))
  | .error ec => .ok (s, some ⟨none, some ec⟩)
  | .datagram d => do
    let buffer ← d.receive
    let (packages, completedPackage, _) ←
      Socket.handleDatagram (Reassembly.handleDatagram host) settings d.pruneNow d.env buffer
        d.senderEndpoint ⟨.genericError, ""⟩ s.packages
    match completedPackage with
    | some package => return (⟨d.senderEndpoint, packages⟩, some ⟨some package.bytes, none⟩)
    | none => return ({ s with packages := packages }, none)

/-! ## SocketNpcap -/

variable (makeEndpoint : A → UInt16 → E)

/-- `SocketNpcap::receive_from`, with the error as `AsyncUdpcapSocket::receiveFrom` converts it. -/
def SocketNpcap.receiveFrom : Receiver E → List (UdpcapEvent A) →
    Except Fault (Receiver E × Option (ReceiveResult Error × List (UdpcapEvent A)))
  | s, [] => .ok (s, none)
  | s, event :: events =>
    let error := toEcaludpError event.udpcapError
    if error.toBool then
      .ok (s, some (⟨none, error.reported⟩, events))
    else do
      let d := event.datagram
      let buffer ← d.receive
      let senderEndpointOfThisDatagram := makeEndpoint d.senderEndpoint.1 d.senderEndpoint.2
      let (packages, completedPackage, _) ←
        SocketNpcap.handleDatagram (Reassembly.handleDatagram host) settings d.pruneNow d.env buffer
          senderEndpointOfThisDatagram ⟨.genericError, ""⟩ s.packages
      match completedPackage with
      | some package =>
        return (⟨senderEndpointOfThisDatagram, packages⟩,
          some (⟨some package.bytes, error.reported⟩, events))
      | none => SocketNpcap.receiveFrom { s with packages := packages } events

/-- The callback of `SocketNpcap::receive_next_datagram_from`, which gets the error as the wait
thread converts it. With a message the completion handler gets the error of `handle_datagram`. -/
def SocketNpcap.receiveNextDatagramFrom (s : Receiver E) (event : UdpcapEvent A) :
    Except Fault (Receiver E × Option (ReceiveResult Error)) :=
  let error := toEcaludpError event.udpcapError
  if error.toBool then
    .ok (s, some ⟨none, error.reported⟩)
  else do
    let d := event.datagram
    let buffer ← d.receive
    let senderEndpointOfThisDatagram := makeEndpoint d.senderEndpoint.1 d.senderEndpoint.2
    let (packages, completedPackage, datagramHandleError) ←
      SocketNpcap.handleDatagram (Reassembly.handleDatagram host) settings d.pruneNow d.env buffer
        senderEndpointOfThisDatagram ⟨.genericError, ""⟩ s.packages
    match completedPackage with
    | some package =>
      return (⟨senderEndpointOfThisDatagram, packages⟩,
        some ⟨some package.bytes, datagramHandleError.reported⟩)
    | none => return ({ s with packages := packages }, none)

end Loops

end Ecaludp
