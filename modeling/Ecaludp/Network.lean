import Ecaludp.Socket.Send

/-!
# Sockets on a network

Any number of sockets send messages to one receiving socket. Those of one process draw their message
ids from one generator. The network loses, repeats and delays datagrams as it likes, and mixes in
the datagrams of strangers, of which nothing is known but that their endpoints are their own.
-/

namespace Ecaludp

open ByteOrder Reassembly

/-- A socket that sends: its process, the byte order of its host and its member
`max_udp_datagram_size_`. -/
structure SendingSocket (P : Type) where
  process : P
  host : ByteOrder
  maxUdpDatagramSize : ℕ := 1448

/-- Asio gathers the datagrams of the message whole. -/
def SendingSocket.Gathers {P : Type} (socket : SendingSocket P)
    (buffers : List (List UInt8)) (magic : Magic) (rng : Xorshf96) : Prop :=
  ∀ datagrams rng', createDatagramList socket.host buffers socket.maxUdpDatagramSize magic rng =
    .ok (datagrams, rng') → ∀ datagram ∈ datagrams, datagram.asioBufferList.length ≤ maxBuffers

/-- The sending sockets by their endpoints, and the receiving socket, whose magic they all use. -/
structure Deployment (E P : Type) where
  sender : E → Option (SendingSocket P)
  host : ByteOrder
  settings : SocketSettings

/-- A message that was sent: its sender, its bytes and the datagrams that went out for it. -/
structure SentMessage (E : Type) where
  endpoint : E
  content : List UInt8
  datagrams : List (List UInt8)
  deriving DecidableEq

/-- The id in the datagrams of a fragmented message. -/
def SentMessage.id? {E : Type} (message : SentMessage E) : Option Int32 :=
  if 1 < message.datagrams.length then
    some (wordAt (message.datagrams.headD []) 12).toInt32 else none

/-- The generators of the processes, the messages sent so far, and the packages of the receiver. -/
structure Network (E P : Type) [LinearOrder E] where
  rng : P → Xorshf96
  sent : List (SentMessage E)
  packages : Reassembly E

namespace Network

/-- A socket sends the concatenation of some buffers, or a datagram arrives. The origin of a
datagram is the number of a message and the number of a datagram of it; strangers have none. -/
inductive Event (E : Type) where
  | send (endpoint : E) (buffers : List (List UInt8))
  | receive (origin : Option (ℕ × ℕ)) (r : Receipt E)

variable {E P : Type} [LinearOrder E] [DecidableEq P]

/-- Nothing was sent yet. -/
def init (rng : P → Xorshf96) : Network E P := ⟨rng, [], ∅⟩

/-- One event; what a receiver returns is the output. -/
def step (d : Deployment E P) (w : Network E P) :
    Event E → Except Fault (Network E P × Option Outcome)
  | .send endpoint buffers =>
    match d.sender endpoint with
    | none => .ok (w, none)
    | some socket =>
      match createDatagramList socket.host buffers socket.maxUdpDatagramSize
        d.settings.magicHeaderBytes (w.rng socket.process) with
      | .error _ => .ok (w, none)
      | .ok (datagrams, rng) =>
        .ok ({ w with
          rng := Function.update w.rng socket.process rng
          sent := w.sent ++ [⟨endpoint, buffers.flatten,
            datagrams.map (DatagramDescription.transmitted socket.host)⟩] }, none)
  | .receive _ r =>
    (Socket.step d.host d.settings w.packages r).map fun x => ({ w with packages := x.1 }, some x.2)

/-- What is asked of a send: the socket can send datagrams, the protocol can announce the message,
asio gathers its datagrams whole, and if it is fragmented its id is not that of another message of
its sender. -/
structure Sendable (d : Deployment E P) (w : Network E P) (endpoint : E)
    (buffers : List (List UInt8)) (socket : SendingSocket P) : Prop where
  sender : d.sender endpoint = some socket
  datagramSize : sizeofHeader < socket.maxUdpDatagramSize
  announced : buffers.flatten.length + (socket.maxUdpDatagramSize - sizeofHeader) ≤ 2 ^ 32
  gathers : socket.Gathers buffers d.settings.magicHeaderBytes (w.rng socket.process)
  freshId : socket.maxUdpDatagramSize < buffers.flatten.length + sizeofHeader →
    ∀ message ∈ w.sent, message.endpoint = endpoint →
      message.id? ≠ some (xorshf96 (w.rng socket.process)).1.toInt32

/-- What may happen. A datagram that arrives is one that was sent, or comes from a stranger. -/
def Event.Possible (d : Deployment E P) (w : Network E P) : Event E → Prop
  | .send endpoint buffers => ∃ socket, Sendable d w endpoint buffers socket
  | .receive (some (i, j)) r => ∃ message, w.sent[i]? = some message ∧
      message.datagrams[j]? = some r.buffer.bytes ∧ r.senderEndpoint = message.endpoint
  | .receive none r => d.sender r.senderEndpoint = none

/-- A datagram of message `i` arrives. -/
def Event.copyOf (i : ℕ) : Event E → Bool
  | .receive (some (i', _)) _ => i' == i
  | _ => false

/-- Datagram `j` of message `i` arrives. -/
def Event.copy (i j : ℕ) : Event E → Bool
  | .receive (some origin) _ => origin == (i, j)
  | _ => false

/-- The arriving datagram. -/
def Event.receipt : Event E → Option (Receipt E)
  | .send _ _ => none
  | .receive _ r => some r

end Network

end Ecaludp
