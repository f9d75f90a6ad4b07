import Ecaludp.Socket.Loops

/-!
# Receiving and handled datagrams

The calls of `receive_from`, or the callbacks of `async_receive_from`, return the messages that
`handle_datagram` returns for the datagrams among the events that they take, one after the other
(`received_messages`). So what is known of runs of `handle_datagram` holds of what a user receives.
-/

namespace Ecaludp

open Reassembly Pull

variable {E : Type} [LinearOrder E] {Err B ι : Type}

/-- The call of `handle_datagram` for a datagram. -/
def ReceivedDatagram.receipt (d : ReceivedDatagram B) (senderEndpoint : E) : Option (Receipt E) :=
  match d.receive with
  | .ok buffer => some ⟨d.pruneNow, d.env, buffer, senderEndpoint, ⟨.genericError, ""⟩⟩
  | .error _ => none

/-- The call of `handle_datagram` for what a receive operation ends with. -/
def ReceiveEvent.receipt : ReceiveEvent E Err → Option (Receipt E)
  | .error _ => none
  | .datagram d => d.receipt d.senderEndpoint

theorem filterMap_cons_eq {α β : Type*} (f : α → Option β) (a : α) (as : List α) :
    (a :: as).filterMap f = (f a).toList ++ as.filterMap f := by
  cases h : f a <;> simp [h]

section Handled

variable {host : ByteOrder} {settings : SocketSettings}

theorem run_receipt_of_handleDatagram {d : ReceivedDatagram B} {senderEndpoint : E}
    {buffer : RawMemory}
    {packages packages' : Reassembly E} {result : Option OwningBuffer × Error}
    (hreceive : d.receive = .ok buffer)
    (hhandle : Socket.handleDatagram (Reassembly.handleDatagram host) settings d.pruneNow d.env
      buffer senderEndpoint ⟨.genericError, ""⟩ packages = .ok (packages', result)) :
    Machine.run (Socket.step host settings) packages (d.receipt senderEndpoint).toList =
      ([outcome result], .ok packages') := by
  have hstep : Socket.step host settings packages
      ⟨d.pruneNow, d.env, buffer, senderEndpoint, ⟨.genericError, ""⟩⟩ =
        .ok (packages', outcome result) := by
    rw [Socket.step, hhandle]
    rfl
  rw [ReceivedDatagram.receipt, hreceive, Option.toList_some, Machine.run_cons_ok hstep,
    Machine.run_nil]

/-- A callback that handles the datagram of an event, if it has one, and passes its message on. -/
def HandlesReceipt (host : ByteOrder) (settings : SocketSettings)
    (callback : Receiver E → ι → Except Fault (Receiver E × Option (ReceiveResult Err)))
    (receipt : ι → Option (Receipt E)) : Prop :=
  ∀ r event r' result, callback r event = .ok (r', result) →
    (Machine.run (Socket.step host settings) r.packages (receipt event).toList).2 =
      .ok r'.packages ∧
      (Machine.run (Socket.step host settings) r.packages (receipt event).toList).1.filterMap
        Outcome.message = (result.bind ReceiveResult.message).toList

theorem HandlesReceipt.run
    {callback : Receiver E → ι → Except Fault (Receiver E × Option (ReceiveResult Err))}
    {receipt : ι → Option (Receipt E)} (h : HandlesReceipt host settings callback receipt)
    {r r' : Receiver E} {events : List ι} (hrun : (Machine.run callback r events).2 = .ok r') :
    (Machine.run (Socket.step host settings) r.packages (events.filterMap receipt)).2 =
      .ok r'.packages ∧
      (Machine.run (Socket.step host settings) r.packages (events.filterMap receipt)).1.filterMap
        Outcome.message =
        (Machine.run callback r events).1.reduceOption.filterMap ReceiveResult.message := by
  induction events generalizing r with
  | nil =>
    cases hrun
    exact ⟨rfl, rfl⟩
  | cons event events ih =>
    rcases hevent : callback r event with f | ⟨r₁, result⟩
    · rw [Machine.run_cons_error hevent] at hrun
      cases hrun
    · rw [Machine.run_cons_ok hevent] at hrun ⊢
      obtain ⟨hend, hmessage⟩ := h r event r₁ result hevent
      obtain ⟨hpackages, hmessages⟩ := ih hrun
      rw [filterMap_cons_eq, Machine.run_append _ hend, List.filterMap_append, hmessage, hmessages]
      refine ⟨hpackages, ?_⟩
      cases result with
      | none => rw [List.reduceOption_cons_of_none]; rfl
      | some x => rw [List.reduceOption_cons_of_some, filterMap_cons_eq]; rfl

/-- Such a callback, armed again and again, gives the messages of a run of `handle_datagram`. -/
theorem HandlesReceipt.messages_of_pushed
    {callback : Receiver E → ι → Except Fault (Receiver E × Option (ReceiveResult Err))}
    {receipt : ι → Option (Receipt E)} (h : HandlesReceipt host settings callback receipt)
    {stop : ReceiveResult Err → Bool} {n : ℕ} {r r' : Receiver E} {events rest : List ι}
    (hend : (pushed callback stop n r events).2 = .ok (r', rest)) :
    ∃ handled, events = handled ++ rest ∧
      (Machine.run (Socket.step host settings) r.packages (handled.filterMap receipt)).2 =
        .ok r'.packages ∧
      (pushed callback stop n r events).1.filterMap (fun x => x.2.1.message) =
        (Machine.run (Socket.step host settings) r.packages
          (handled.filterMap receipt)).1.filterMap Outcome.message := by
  obtain ⟨handled, heq, hrun, houts⟩ := exists_run_of_pushed hend
  obtain ⟨hpackages, hmessages⟩ := h.run hrun
  refine ⟨handled, heq, hpackages, ?_⟩
  rw [hmessages, ← houts, List.filterMap_map]
  rfl

theorem Socket.handlesReceipt (host : ByteOrder) (settings : SocketSettings) :
    HandlesReceipt host settings (Socket.receiveNextDatagramFrom host settings)
      (ReceiveEvent.receipt : ReceiveEvent E Err → Option (Receipt E)) := by
  intro r event r' result h
  cases event with
  | error ec =>
    cases h
    exact ⟨rfl, rfl⟩
  | datagram d =>
    rcases hreceive : d.receive with f | buffer
    · simp only [Socket.receiveNextDatagramFrom, hreceive, bind, Except.bind] at h
      cases h
    · simp only [Socket.receiveNextDatagramFrom, hreceive, bind, Except.bind] at h
      rcases hhandle : Socket.handleDatagram (Reassembly.handleDatagram host) settings
        d.pruneNow d.env buffer
        d.senderEndpoint ⟨.genericError, ""⟩ r.packages with f | ⟨packages, package, error⟩
      · rw [hhandle] at h
        cases h
      · rw [hhandle] at h
        rw [ReceiveEvent.receipt, run_receipt_of_handleDatagram hreceive hhandle]
        cases package <;> cases h <;> exact ⟨rfl, rfl⟩

/-- A user receives what is reassembled. The results of repeated calls of `receive_from`, and as
well those of `async_receive_from`, have the messages that `handle_datagram` returns for the
datagrams among the events that are not left, in their order. -/
theorem received_messages (defaultEndpoint : E) {stop : ReceiveResult Err → Bool} {n : ℕ}
    {r r' : Receiver E} {events rest : List (ReceiveEvent E Err)}
    (hdefault : ∀ d, .datagram d ∈ events → d.senderEndpoint ≠ defaultEndpoint)
    (h : (pulled (Socket.receiveFrom host settings defaultEndpoint) stop n r events).2 =
      .ok (r', rest)) :
    pulled (Socket.receiveFrom host settings defaultEndpoint) stop n r events =
        pushed (Socket.receiveNextDatagramFrom host settings) stop n r events ∧
      ∃ handled, events = handled ++ rest ∧
        (Machine.run (Socket.step host settings) r.packages
          (handled.filterMap ReceiveEvent.receipt)).2 = .ok r'.packages ∧
        (pulled (Socket.receiveFrom host settings defaultEndpoint) stop n r events).1.filterMap
            (fun x => x.2.1.message) =
          (Machine.run (Socket.step host settings) r.packages
            (handled.filterMap ReceiveEvent.receipt)).1.filterMap Outcome.message := by
  have hpushed : pulled (Socket.receiveFrom host settings defaultEndpoint) stop n r events =
      pushed (Socket.receiveNextDatagramFrom host settings) stop n r events :=
    pulled_eq_pushed (fun s js hjs => Socket.receiveFrom_eq_next host settings
      (fun d hd => hdefault d (hjs.subset hd)) s) n r
  refine ⟨hpushed, ?_⟩
  rw [hpushed] at h ⊢
  exact (Socket.handlesReceipt host settings).messages_of_pushed h

theorem received_messages_messageEvents :
    ∃ r, (pulled (Socket.receiveFrom .littleEndian ⟨#v[69, 67, 65, 76], 5⟩ 0) ReceiveResult.stops 2
        (⟨0, ∅⟩ : Receiver ℕ) messageEvents).2 = .ok (r, []) ∧
      ∃ handled : List (ReceiveEvent ℕ Unit), messageEvents = handled ++ [] ∧
        (Machine.run (Socket.step .littleEndian ⟨#v[69, 67, 65, 76], 5⟩) ∅
          (handled.filterMap ReceiveEvent.receipt)).2 = .ok r.packages ∧
        (Machine.run (Socket.step .littleEndian ⟨#v[69, 67, 65, 76], 5⟩) ∅
          (handled.filterMap ReceiveEvent.receipt)).1.filterMap Outcome.message = [[8, 9]] := by
  obtain ⟨hresults, hrest⟩ := Prod.mk.inj pulled_messageEvents
  rcases hpulled : (pulled (Socket.receiveFrom .littleEndian ⟨#v[69, 67, 65, 76], 5⟩ 0)
    ReceiveResult.stops 2 (⟨0, ∅⟩ : Receiver ℕ) messageEvents).2 with f | ⟨r, rest⟩
  · rw [hpulled] at hrest
    cases hrest
  · rw [hpulled] at hrest
    obtain rfl : rest = [] := List.isEmpty_iff.mp (Option.some.inj hrest)
    obtain ⟨-, handled, heq, hrun, hmessages⟩ :=
      received_messages 0 (fun d hd => senders_messageEvents hd) hpulled
    refine ⟨r, rfl, handled, heq, hrun, ?_⟩
    rw [← hmessages]
    calc _ = ((pulled (Socket.receiveFrom .littleEndian ⟨#v[69, 67, 65, 76], 5⟩ 0)
          ReceiveResult.stops 2 (⟨0, ∅⟩ : Receiver ℕ) messageEvents).1.map
            fun x => (x.1.senderEndpoint, x.2.1.message, x.2.1.error)).filterMap
              (fun x => x.2.1) := by
          rw [List.filterMap_map]
          rfl
      _ = [[8, 9]] := by
        rw [hresults]
        rfl

end Handled

end Ecaludp
