import Ecaludp.Socket
import Ecaludp.DatagramBuilder

/-!
# Sending

`Socket::send_to` and `Socket::async_send_to` build the datagrams of a message and hand them one by
one to a socket of asio until one cannot be sent. The operations of that socket are parameters
(`AsioSocket`). What is known of them is that a send puts the bytes of the first 64 buffers on the
wire as one datagram (`AsioSocket.Lawful`).
-/

namespace Ecaludp

/-- The number of buffers that a send of asio gathers, `buffer_sequence_adapter::max_buffers`. -/
abbrev maxBuffers : ℕ := 64

/-- The send operations of `asio::ip::udp::socket` to one destination: what they do to the state of
the socket, the number of bytes and the error that they report; and the datagrams on the wire. -/
structure AsioSocket (σ Err : Type) where
  sendTo : List (List UInt8) → σ → σ × UInt64 × Option Err
  asyncSendTo : List (List UInt8) → σ → σ × Option Err
  wire : σ → List (List UInt8)

/-- A send without an error transmits the first buffers, a send with an error nothing. -/
structure AsioSocket.Lawful {σ Err : Type} (asio : AsioSocket σ Err) : Prop where
  wire_sendTo : ∀ buffers s, asio.wire (asio.sendTo buffers s).1 = asio.wire s ++
    if (asio.sendTo buffers s).2.2.isNone then [(buffers.take maxBuffers).flatten] else []
  wire_asyncSendTo : ∀ buffers s, asio.wire (asio.asyncSendTo buffers s).1 = asio.wire s ++
    if (asio.asyncSendTo buffers s).2.isNone then [(buffers.take maxBuffers).flatten] else []

/-- The buffers of a datagram, as a send reads them. -/
def DatagramDescription.buffers (host : ByteOrder) (d : DatagramDescription) : List (List UInt8) :=
  d.asioBufferList.map fun buffer =>
    match buffer with
    | .headerBuffer => d.header.store host
    | .userBuffer bytes => bytes

/-- What a send puts on the wire for a datagram. -/
def DatagramDescription.transmitted (host : ByteOrder) (d : DatagramDescription) : List UInt8 :=
  ((d.buffers host).take maxBuffers).flatten

theorem transmitted_of_length_le (host : ByteOrder) {datagram : DatagramDescription}
    (h : datagram.asioBufferList.length ≤ maxBuffers) :
    datagram.transmitted host = datagram.serialise host := by
  unfold DatagramDescription.transmitted DatagramDescription.buffers DatagramDescription.serialise
  rw [List.take_of_length_le (by rwa [List.length_map])]
  exact List.flatMap_def.symm

section Send

variable {σ Err : Type} (asio : AsioSocket σ Err) (host : ByteOrder)

/-- The loop of `Socket::send_to`. -/
def sendDatagramListTo : DatagramList → UInt64 → σ → σ × UInt64 × Option Err
  | [], sent, s => (s, sent, none)
  | datagram :: datagrams, sent, s =>
    let (s, bytes, ec) := asio.sendTo (datagram.buffers host) s
    match ec with
    | some ec => (s, sent + bytes, some ec)
    | none => sendDatagramListTo datagrams (sent + bytes) s

/-- `async_send_datagram_list_to`, with the error that the completion handler is called with. -/
def asyncSendDatagramListTo : DatagramList → σ → σ × Option Err
  | [], s => (s, none)
  | datagram :: datagrams, s =>
    let (s, ec) := asio.asyncSendTo (datagram.buffers host) s
    match ec with
    | some ec => (s, some ec)
    | none => asyncSendDatagramListTo datagrams s

variable (settings : SocketSettings) (maxUdpDatagramSize : ℕ) (bufferSequence : List (List UInt8))
  (rng : Xorshf96) (s : σ)

/-- `Socket::send_to`. -/
def Socket.sendTo : Except BuildError (Xorshf96 × σ × UInt64 × Option Err) := do
  let (datagramList, rng) ←
    createDatagramList host bufferSequence maxUdpDatagramSize settings.magicHeaderBytes rng
  return (rng, sendDatagramListTo asio host datagramList 0 s)

/-- `Socket::async_send_to`. -/
def Socket.asyncSendTo : Except BuildError (Xorshf96 × σ × Option Err) := do
  let (datagramList, rng) ←
    createDatagramList host bufferSequence maxUdpDatagramSize settings.magicHeaderBytes rng
  return (rng, asyncSendDatagramListTo asio host datagramList s)

end Send

/-! ## On the wire -/

section Wire

variable {σ Err : Type} {asio : AsioSocket σ Err}

/-- The datagrams up to the first that cannot be sent are transmitted; all of them are, if there is
no error. -/
theorem wire_sendDatagramListTo (hasio : asio.Lawful) (host : ByteOrder) (datagrams : DatagramList)
    (sent : UInt64) (s : σ) :
    ∃ n, asio.wire (sendDatagramListTo asio host datagrams sent s).1 =
        asio.wire s ++ (datagrams.take n).map (DatagramDescription.transmitted host) ∧
      ((sendDatagramListTo asio host datagrams sent s).2.2 = none → n = datagrams.length) := by
  induction datagrams generalizing sent s with
  | nil => exact ⟨0, by simp [sendDatagramListTo], fun _ => rfl⟩
  | cons d ds ih =>
    have hwire := hasio.wire_sendTo (d.buffers host) s
    unfold sendDatagramListTo
    rcases hsend : asio.sendTo (d.buffers host) s with ⟨s', bytes, _ | ec⟩
    · rw [hsend] at hwire
      have hnext : asio.wire s' = asio.wire s ++ [d.transmitted host] := hwire
      obtain ⟨n, hn, hall⟩ := ih (sent + bytes) s'
      refine ⟨n + 1, ?_, fun hnone => by rw [hall hnone, List.length_cons]⟩
      show asio.wire (sendDatagramListTo asio host ds (sent + bytes) s').1 = _
      rw [hn, hnext, List.take_succ_cons, List.map_cons, List.append_assoc, List.singleton_append]
    · rw [hsend] at hwire
      refine ⟨0, ?_, fun hnone => by cases hnone⟩
      simpa using hwire

theorem wire_asyncSendDatagramListTo (hasio : asio.Lawful) (host : ByteOrder)
    (datagrams : DatagramList) (s : σ) :
    ∃ n, asio.wire (asyncSendDatagramListTo asio host datagrams s).1 =
        asio.wire s ++ (datagrams.take n).map (DatagramDescription.transmitted host) ∧
      ((asyncSendDatagramListTo asio host datagrams s).2 = none → n = datagrams.length) := by
  induction datagrams generalizing s with
  | nil => exact ⟨0, by simp [asyncSendDatagramListTo], fun _ => rfl⟩
  | cons d ds ih =>
    have hwire := hasio.wire_asyncSendTo (d.buffers host) s
    unfold asyncSendDatagramListTo
    rcases hsend : asio.asyncSendTo (d.buffers host) s with ⟨s', _ | ec⟩
    · rw [hsend] at hwire
      have hnext : asio.wire s' = asio.wire s ++ [d.transmitted host] := hwire
      obtain ⟨n, hn, hall⟩ := ih s'
      refine ⟨n + 1, ?_, fun hnone => by rw [hall hnone, List.length_cons]⟩
      show asio.wire (asyncSendDatagramListTo asio host ds s').1 = _
      rw [hn, hnext, List.take_succ_cons, List.map_cons, List.append_assoc, List.singleton_append]
    · rw [hsend] at hwire
      refine ⟨0, ?_, fun hnone => by cases hnone⟩
      simpa using hwire

end Wire

end Ecaludp
