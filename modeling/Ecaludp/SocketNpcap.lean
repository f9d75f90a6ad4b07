import Ecaludp.AsyncUdpcapSocket
import Ecaludp.Socket.ReceiveFrom

/-!
# Asynchronous operations of a Npcap socket

`SocketNpcap::async_receive_from` starts an operation: it makes a request of the asynchronous Udpcap
socket whose handler either calls the completion handler of the operation or makes the next request
for it. Any number of operations can be under way. Threads interleave between the actions below. The
wait thread takes all datagrams and is the only one that handles them, so a handler is one action up
to the point at which it makes the next request.

The operations are numbered in the order in which they are started, and each has a variable
`sender_endpoint` of its own.
-/

namespace Ecaludp

open Reassembly

variable {E A : Type} [LinearOrder E]

namespace SocketNpcap

/-- `SocketNpcap` after a successful `bind`. -/
structure State (E A : Type) [LinearOrder E] where
  socket : AsyncUdpcapSocket ℕ := {}
  /-- what `receiveDatagram` has left in the variables of the request in hand -/
  received : Option (UdpcapEvent A) := none
  /-- the operation for which the wait thread is about to call `receive_next_datagram_from` -/
  rearming : Option ℕ := none
  started : ℕ := 0
  senderEndpoint : ℕ → E
  packages : Reassembly E := ∅

/-- The actions of the callers and of the wait thread. -/
inductive Action (A : Type) where
  | asyncReceiveFrom
  | close
  | takeRequest
  | receiveDatagram (event : UdpcapEvent A)
  | callHandler
  | rearm

/-- A call of the completion handler of an operation, and its variable `sender_endpoint` at that
time. -/
structure Completion (E : Type) where
  operation : ℕ
  senderEndpoint : E
  result : ReceiveResult Error

/-- Why an action does not happen. -/
inductive Stop where
  | disabled
  | fault (f : Fault)
  | badFunctionCall

/-- The socket below takes the action. -/
def State.below (s : State E A) (action : AsyncUdpcapSocket.Action ℕ) : Except Stop (State E A) :=
  match s.socket.step action with
  | .ok (socket, _) => .ok { s with socket }
  | .error _ => .error .disabled

/-- The handler of a request, with the operation that it belongs to. -/
def State.readHandler (host : ByteOrder) (settings : SocketSettings) (makeEndpoint : A → UInt16 → E)
    (s : State E A) (operation : ℕ) (event : UdpcapEvent A) :
    Except Stop (State E A × Option (Completion E)) :=
  match receiveNextDatagramFrom host settings makeEndpoint ⟨s.senderEndpoint operation,
    s.packages⟩ event with
  | .error f => .error (.fault f)
  | .ok (r, result) =>
    let s := { s with
      senderEndpoint := Function.update s.senderEndpoint operation r.senderEndpoint
      packages := r.packages }
    match result with
    | some result => .ok (s, some ⟨operation, r.senderEndpoint, result⟩)
    | none => .ok ({ s with rearming := some operation }, none)

/-- One action, with the call of a completion handler that it makes. -/
def step (host : ByteOrder) (settings : SocketSettings) (makeEndpoint : A → UInt16 → E)
    (s : State E A) :
    Action A → Except Stop (State E A × Option (Completion E))
  | .asyncReceiveFrom =>
    (s.below (.asyncReceiveFrom s.started)).map fun s => ({ s with started := s.started + 1 }, none)
  | .close => (s.below .close).map fun s => (s, none)
  | .takeRequest =>
    if s.rearming.isSome then .error .disabled else (s.below .takeRequest).map fun s => (s, none)
  | .receiveDatagram event =>
    (s.below (.receiveDatagram event.udpcapError event.datagram.bytes.length)).map fun s =>
      ({ s with received := some event }, none)
  | .callHandler =>
    match s.socket.step .callHandler, s.received with
    | .ok (socket, some ⟨some operation, _, _⟩), some event =>
      State.readHandler host settings makeEndpoint
        { s with socket, received := none } operation event
    | .ok _, _ => .error .badFunctionCall
    | .error _, _ => .error .disabled
  | .rearm =>
    match s.rearming with
    | some operation =>
      (s.below (.asyncReceiveFrom operation)).map fun s => ({ s with rearming := none }, none)
    | none => .error .disabled

end SocketNpcap

end Ecaludp
