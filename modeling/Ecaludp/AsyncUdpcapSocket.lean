import Ecaludp.Error
import Ecaludp.Lib.Machine

/-!
# The asynchronous Udpcap socket

`asyncReceiveFrom` puts a request into a queue. A wait thread takes the requests out one by one,
receives a datagram for each and calls the handler of the request. Threads interleave between
the actions below; a critical section under `wait_thread_trigger_mutex_` is one action, and the
condition variable wakes the thread up exactly when its predicate holds.

Udpcap is not part of the repository. Its `receiveDatagram` returns anything, `isClosed` is true
once `close` has been called. The buffer and the sender variables of a request are only passed on
to Udpcap and left out. Handlers are values of a type `H`.
-/

namespace Ecaludp

/-- The codes of a `Udpcap::Error` that `toEcaludpError` tells apart. -/
inductive UdpcapErrorCode where
  | ok
  | npcapNotInitialized
  | notBound
  | socketClosed
  | genericError
  | other
  deriving DecidableEq, Repr

/-- `Udpcap::Error` with the results of `GetErrorCode()`, `GetMessage()` and `ToString()`. -/
structure UdpcapError where
  errorCode : UdpcapErrorCode
  message : String
  description : String

/-- `toEcaludpError`. -/
def toEcaludpError (udpcapError : UdpcapError) : Error :=
  match udpcapError.errorCode with
  | .ok => ⟨.ok, udpcapError.message⟩
  | .npcapNotInitialized => ⟨.npcapNotInitialized, udpcapError.message⟩
  | .notBound => ⟨.notBound, udpcapError.message⟩
  | .socketClosed => ⟨.socketClosed, udpcapError.message⟩
  | .genericError => ⟨.genericError, udpcapError.message⟩
  | .other => ⟨.genericError, "Unknown Udpcap Error: " ++ udpcapError.description⟩

/-- `AsyncReceiveFromParameters`; a default-constructed one has an empty handler. -/
structure AsyncReceiveFromParameters (H : Type) where
  readHandler : Option H := none

/-- Where the wait thread is in `waitForData`. -/
inductive WaitThread (H : Type) where
  /-- in front of the critical section -/
  | waiting
  /-- in `receiveDatagram` -/
  | receiving (next : AsyncReceiveFromParameters H)
  /-- in front of the call of the handler -/
  | handling (next : AsyncReceiveFromParameters H) (error : Error) (recBytes : ℕ)
  | returned

/-- `AsyncUdpcapSocket` after a successful `bind`. -/
structure AsyncUdpcapSocket (H : Type) where
  isClosed : Bool := false
  asyncReceiveFromParametersQueue : List (AsyncReceiveFromParameters H) := []
  waitThread : WaitThread H := .waiting

namespace AsyncUdpcapSocket

variable {H : Type}

/-- The actions of the callers and of the wait thread. -/
inductive Action (H : Type) where
  | asyncReceiveFrom (readHandler : H)
  | close
  /-- the critical section of `waitForData` -/
  | takeRequest
  | receiveDatagram (udpcapError : UdpcapError) (recBytes : ℕ)
  | callHandler

/-- A call of a handler. -/
structure Invocation (H : Type) where
  readHandler : Option H
  error : Error
  recBytes : ℕ

/-- The action cannot happen in this state. -/
inductive Disabled where
  | disabled
  deriving DecidableEq

/-- The critical section of `waitForData`. -/
def takeRequest (s : AsyncUdpcapSocket H) : Except Disabled (AsyncUdpcapSocket H) :=
  if s.isClosed || !s.asyncReceiveFromParametersQueue.isEmpty then
    let (next, queue) : AsyncReceiveFromParameters H × List (AsyncReceiveFromParameters H) :=
      match s.asyncReceiveFromParametersQueue with
      | front :: queue => (front, queue)
      | [] => ({}, [])
    if queue.isEmpty && s.isClosed then
      .ok { s with asyncReceiveFromParametersQueue := queue, waitThread := .returned }
    else
      .ok { s with asyncReceiveFromParametersQueue := queue, waitThread := .receiving next }
  else
    .error .disabled

/-- One action, with the call of a handler that it makes. -/
def step (s : AsyncUdpcapSocket H) (action : Action H) :
    Except Disabled (AsyncUdpcapSocket H × Option (Invocation H)) :=
  match action, s.waitThread with
  | .asyncReceiveFrom readHandler, _ =>
    .ok ({ s with asyncReceiveFromParametersQueue :=
      s.asyncReceiveFromParametersQueue ++ [⟨some readHandler⟩] }, none)
  | .close, _ => .ok ({ s with isClosed := true }, none)
  | .takeRequest, .waiting => s.takeRequest.map fun s => (s, none)
  | .receiveDatagram udpcapError recBytes, .receiving next =>
    .ok ({ s with waitThread := .handling next (toEcaludpError udpcapError) recBytes }, none)
  | .callHandler, .handling next error recBytes =>
    .ok ({ s with waitThread := .waiting }, some ⟨next.readHandler, error, recBytes⟩)
  | _, _ => .error .disabled

end AsyncUdpcapSocket

end Ecaludp
