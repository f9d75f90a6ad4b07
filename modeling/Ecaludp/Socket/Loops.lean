import Ecaludp.Socket.ReceiveFrom
import Ecaludp.Socket.Receive

/-!
# The receive loops agree

A blocking call of `receive_from` is the repetition of what the asynchronous callback does with one
event, so that both ways of receiving give the same messages from the same events
(`receiveLoops_agree`). The check for zero bytes from the default endpoint, which only the blocking
call of `Socket` has, concerns no real sender.
-/

namespace Ecaludp

open Reassembly Pull

variable {E : Type} [LinearOrder E] {Err A : Type}

theorem toBool_eq_false_of_message {reassemblyHandler : ReassemblyHandler E}
    {settings : SocketSettings} {pruneNow : TimePoint} {env : Env} {buffer : RawMemory}
    {senderEndpoint : E} {error error' : Error} {packages packages' : Reassembly E}
    {package : OwningBuffer}
    (h : handleReceived reassemblyHandler settings pruneNow env buffer senderEndpoint
      error packages = .ok (packages', some package, error')) : error'.toBool = false := by
  by_cases hpasses : PassesHeader settings buffer
  · rw [handleReceived_of_passesHeader hpasses] at h
    obtain ⟨⟨packages₁, completed, error₁⟩, -, hdrop⟩ := Machine.map_eq_ok.mp h
    unfold dropOnError at hdrop
    cases hb : error₁.toBool with
    | false =>
      simp only [hb] at hdrop
      cases hdrop
      exact hb
    | true =>
      simp only [hb] at hdrop
      cases hdrop
  · rw [handleReceived_of_not_passesHeader hpasses] at h
    cases h

theorem reported_eq_none {e : Error} (h : e.toBool = false) : e.reported = none := by
  rw [Error.reported, h]
  rfl

section Calls

variable (host : ByteOrder) (settings : SocketSettings)

/-- `Socket`: a blocking call is the callback on one event after the other. -/
theorem Socket.receiveFrom_eq_next {defaultEndpoint : E} {events : List (ReceiveEvent E Err)}
    (hdefault : ∀ d, .datagram d ∈ events → d.senderEndpoint ≠ defaultEndpoint) (s : Receiver E) :
    Socket.receiveFrom host settings defaultEndpoint s events =
      next (Socket.receiveNextDatagramFrom host settings) s events := by
  induction events generalizing s with
  | nil => rfl
  | cons event events ih =>
    have hrest := ih fun d hd => hdefault d (List.mem_cons_of_mem _ hd)
    cases event with
    | error ec => rfl
    | datagram d =>
      have hsender := hdefault d List.mem_cons_self
      rw [Socket.receiveFrom, if_neg fun h => hsender h.2, next, Socket.receiveNextDatagramFrom]
      rcases d.receive with f | buffer
      · rfl
      · simp only [bind, Except.bind]
        rcases Socket.handleDatagram (Reassembly.handleDatagram host) settings d.pruneNow d.env
          buffer d.senderEndpoint ⟨.genericError, ""⟩ s.packages with
          f | ⟨packages, _ | package, error⟩
        · rfl
        · exact hrest _
        · rfl

variable (makeEndpoint : A → UInt16 → E)

theorem SocketNpcap.receiveFrom_eq_next (events : List (UdpcapEvent A)) (s : Receiver E) :
    SocketNpcap.receiveFrom host settings makeEndpoint s events =
      next (SocketNpcap.receiveNextDatagramFrom host settings makeEndpoint) s events := by
  induction events generalizing s with
  | nil => rfl
  | cons event events ih =>
    rw [SocketNpcap.receiveFrom, next, SocketNpcap.receiveNextDatagramFrom]
    cases hb : (toEcaludpError event.udpcapError).toBool with
    | true => rfl
    | false =>
      simp only [Bool.false_eq_true, if_false]
      rcases event.datagram.receive with f | buffer
      · rfl
      · simp only [bind, Except.bind]
        rcases hhandle : SocketNpcap.handleDatagram (Reassembly.handleDatagram host) settings
          event.datagram.pruneNow event.datagram.env buffer
          (makeEndpoint event.datagram.senderEndpoint.1 event.datagram.senderEndpoint.2)
          ⟨.genericError, ""⟩ s.packages with f | ⟨packages, _ | package, error⟩
        · rfl
        · exact ih _
        · simp only [reported_eq_none hb, reported_eq_none (toBool_eq_false_of_message hhandle)]
          rfl

/-- The event of asio for an event of Udpcap, with the codes that asio has for the errors. -/
def UdpcapEvent.toReceiveEvent (code : Error → Err) (event : UdpcapEvent A) : ReceiveEvent E Err :=
  let error := toEcaludpError event.udpcapError
  if error.toBool then .error (code error)
  else .datagram
    { event.datagram with
      senderEndpoint :=
        makeEndpoint event.datagram.senderEndpoint.1 event.datagram.senderEndpoint.2 }

/-- The result of asio for a result of Udpcap. -/
def ReceiveResult.mapError (code : Error → Err) (r : ReceiveResult Error) : ReceiveResult Err :=
  ⟨r.message, r.error.map code⟩

/-- Both sockets handle an event in the same way. -/
theorem Socket.receiveNextDatagramFrom_toReceiveEvent (code : Error → Err) (s : Receiver E)
    (event : UdpcapEvent A) :
    Socket.receiveNextDatagramFrom host settings s (event.toReceiveEvent makeEndpoint code) =
      (SocketNpcap.receiveNextDatagramFrom host settings makeEndpoint s event).map fun r =>
        (r.1, r.2.map (ReceiveResult.mapError code)) := by
  rw [SocketNpcap.receiveNextDatagramFrom, UdpcapEvent.toReceiveEvent]
  cases hb : (toEcaludpError event.udpcapError).toBool with
  | true =>
    simp only [if_true, Error.reported, hb]
    rfl
  | false =>
    simp only [Bool.false_eq_true, if_false]
    rw [Socket.receiveNextDatagramFrom]
    show event.datagram.receive >>= _ = _
    rcases event.datagram.receive with f | buffer
    · rfl
    · have hsame : ∀ handler : ReassemblyHandler E,
          Socket.handleDatagram handler = SocketNpcap.handleDatagram handler := fun _ => rfl
      simp only [bind, Except.bind, hsame]
      rcases hhandle : SocketNpcap.handleDatagram (Reassembly.handleDatagram host) settings
        event.datagram.pruneNow event.datagram.env buffer
        (makeEndpoint event.datagram.senderEndpoint.1 event.datagram.senderEndpoint.2)
        ⟨.genericError, ""⟩ s.packages with f | ⟨packages, completed, error⟩
      · rfl
      · simp only
        cases completed with
        | none => rfl
        | some package =>
          simp only [reported_eq_none (toBool_eq_false_of_message hhandle)]
          rfl

end Calls

/-! ## The sender endpoint -/

/-- Along the results and up to the end the variable of the caller changes exactly with a message,
to the sender of the last datagram that the call has taken. -/
def EndpointsReported (final : Except Fault (Receiver E × List (ReceiveEvent E Err))) :
    E → List (ReceiveEvent E Err) →
      List (Receiver E × ReceiveResult Err × List (ReceiveEvent E Err)) → Prop
  | senderEndpoint, _, [] => ∀ s rest, final = .ok (s, rest) → s.senderEndpoint = senderEndpoint
  | senderEndpoint, events, (s, r, rest) :: results =>
    (r.message = none ∧ s.senderEndpoint = senderEndpoint ∨
        ∃ before d, events = before ++ .datagram d :: rest ∧ r.message ≠ none ∧
          s.senderEndpoint = d.senderEndpoint) ∧
      EndpointsReported final s.senderEndpoint rest results

theorem EndpointsReported.cons {final : Except Fault (Receiver E × List (ReceiveEvent E Err))}
    {senderEndpoint : E} {events : List (ReceiveEvent E Err)}
    {results : List (Receiver E × ReceiveResult Err × List (ReceiveEvent E Err))}
    (h : EndpointsReported final senderEndpoint events results) (event : ReceiveEvent E Err) :
    EndpointsReported final senderEndpoint (event :: events) results := by
  cases results with
  | nil => exact h
  | cons result results =>
    refine ⟨h.1.imp id ?_, h.2⟩
    rintro ⟨before, d, heq, hrest⟩
    exact ⟨event :: before, d, by rw [heq, List.cons_append], hrest⟩

section Endpoint

variable (host : ByteOrder) (settings : SocketSettings)

theorem senderEndpoint_of_receiveNext {s s' : Receiver E} {event : ReceiveEvent E Err}
    {o : Option (ReceiveResult Err)}
    (h : Socket.receiveNextDatagramFrom host settings s event = .ok (s', o)) :
    (∀ r ∈ o, r.message = none) ∧ s'.senderEndpoint = s.senderEndpoint ∨
      ∃ d r, event = .datagram d ∧ o = some r ∧ r.message ≠ none ∧
        s'.senderEndpoint = d.senderEndpoint := by
  cases event with
  | error ec =>
    cases h
    left
    simp
  | datagram d =>
    rw [Socket.receiveNextDatagramFrom] at h
    rcases hreceive : d.receive with f | buffer
    · rw [hreceive] at h
      cases h
    · simp only [hreceive, bind, Except.bind] at h
      rcases hhandle : Socket.handleDatagram (Reassembly.handleDatagram host) settings d.pruneNow
        d.env buffer d.senderEndpoint ⟨.genericError, ""⟩ s.packages with
        f | ⟨packages, _ | package, error⟩
      · rw [hhandle] at h
        cases h
      · rw [hhandle] at h
        cases h
        left
        simp
      · rw [hhandle] at h
        cases h
        exact Or.inr ⟨d, _, rfl, rfl, by simp, rfl⟩

theorem endpointsReported_pushed (n : ℕ) (s : Receiver E) (events : List (ReceiveEvent E Err)) :
    EndpointsReported
      (pushed (Socket.receiveNextDatagramFrom host settings) ReceiveResult.stops n s events).2
      s.senderEndpoint events
      (pushed (Socket.receiveNextDatagramFrom host settings) ReceiveResult.stops n s events).1 := by
  induction events generalizing n s with
  | nil =>
    cases n <;> rintro s' rest heq <;> cases heq <;> rfl
  | cons event events ih =>
    cases n with
    | zero =>
      rintro s' rest heq
      cases heq
      rfl
    | succ n =>
      rcases hevent : Socket.receiveNextDatagramFrom host settings s event with f | ⟨s', o⟩
      · simp only [pushed, hevent]
        rintro s' rest heq
        cases heq
      · have hsender := senderEndpoint_of_receiveNext host settings hevent
        cases o with
        | none =>
          simp only [pushed, hevent]
          have hsame : s'.senderEndpoint = s.senderEndpoint := by
            rcases hsender with ⟨-, hsame⟩ | ⟨d, r, -, ho, -⟩
            · exact hsame
            · cases ho
          rw [← hsame]
          exact (ih (n + 1) s').cons event
        | some r =>
          have hresult : r.message = none ∧ s'.senderEndpoint = s.senderEndpoint ∨
              ∃ before d, event :: events = before ++ .datagram d :: events ∧ r.message ≠ none ∧
                s'.senderEndpoint = d.senderEndpoint := by
            rcases hsender with ⟨hnone, hsame⟩ | ⟨d, r', rfl, ho, hsome, hd⟩
            · exact Or.inl ⟨hnone r rfl, hsame⟩
            · cases ho
              exact Or.inr ⟨[], d, rfl, hsome, hd⟩
          simp only [pushed, hevent]
          split_ifs
          · refine ⟨hresult, ?_⟩
            rintro s'' rest heq
            cases heq
            rfl
          · exact ⟨hresult, ih n s'⟩

end Endpoint

/-- The receive loops: for every stream of events, calling the blocking `receive_from` again and
again gives the same results, the same states after each of them and the same events left as arming
the asynchronous receive again and again; the variable of the caller is written exactly with a
message, with the sender of the datagram that completed it. The loops of `SocketNpcap` agree as
well, with each other and with those of `Socket` on the corresponding events. -/
theorem receiveLoops_agree (host : ByteOrder) (settings : SocketSettings) (defaultEndpoint : E)
    (makeEndpoint : A → UInt16 → E) (code : Error → Err) (n : ℕ) (s : Receiver E)
    (events : List (ReceiveEvent E Err))
    (hdefault : ∀ d, .datagram d ∈ events → d.senderEndpoint ≠ defaultEndpoint)
    (udpcapEvents : List (UdpcapEvent A)) :
    pulled (Socket.receiveFrom host settings defaultEndpoint) ReceiveResult.stops n s events =
        pushed (Socket.receiveNextDatagramFrom host settings) ReceiveResult.stops n s events ∧
      EndpointsReported
        (pushed (Socket.receiveNextDatagramFrom host settings) ReceiveResult.stops n s events).2
        s.senderEndpoint events
        (pushed (Socket.receiveNextDatagramFrom host settings) ReceiveResult.stops n s events).1 ∧
      pulled (SocketNpcap.receiveFrom host settings makeEndpoint) ReceiveResult.stops n s
          udpcapEvents =
        pushed (SocketNpcap.receiveNextDatagramFrom host settings makeEndpoint)
          ReceiveResult.stops n s udpcapEvents ∧
      pushed (Socket.receiveNextDatagramFrom host settings) ReceiveResult.stops n s
          (udpcapEvents.map (UdpcapEvent.toReceiveEvent makeEndpoint code)) =
        ((pushed (SocketNpcap.receiveNextDatagramFrom host settings makeEndpoint)
            ReceiveResult.stops n s udpcapEvents).1.map fun r =>
              (r.1, r.2.1.mapError code, r.2.2.map (UdpcapEvent.toReceiveEvent makeEndpoint code)),
          (pushed (SocketNpcap.receiveNextDatagramFrom host settings makeEndpoint)
            ReceiveResult.stops n s udpcapEvents).2.map fun r =>
              (r.1, r.2.map (UdpcapEvent.toReceiveEvent makeEndpoint code))) := by
  refine ⟨?_, endpointsReported_pushed host settings n s events, ?_, ?_⟩
  · exact pulled_eq_pushed (fun s js hjs => Socket.receiveFrom_eq_next host settings
      (fun d hd => hdefault d (hjs.subset hd)) s) n s
  · exact pulled_eq_pushed (fun s js _ =>
      SocketNpcap.receiveFrom_eq_next host settings makeEndpoint js s) n s
  · exact pushed_map (Socket.receiveNextDatagramFrom_toReceiveEvent host settings makeEndpoint code)
      (fun r => rfl) n s udpcapEvents

/-- A datagram from a sender. -/
def datagramFrom {E : Type} (senderEndpoint : E) (bytes : List UInt8)
    (length_le : bytes.length ≤ maxUdpDatagramSize) : ReceivedDatagram E :=
  ⟨bytes, length_le, senderEndpoint, .empty, fun _ => 0, 0, ⟨0, .empty, fun _ => 0⟩⟩

/-- An empty datagram of a real sender, a message of two bytes in one datagram and an error. -/
def messageEvents : List (ReceiveEvent ℕ Unit) :=
  [.datagram (datagramFrom 1 [] (Nat.zero_le _)),
    .datagram (datagramFrom 2 [69, 67, 65, 76, 5, 0, 0, 0, 3, 0, 0, 0, 7, 0, 0, 0, 1, 0, 0, 0, 2, 0,
      0, 0, 8, 9] (Nat.le_of_ble_eq_true rfl)), .error ()]

/-- The same from Udpcap. -/
def udpcapMessageEvents : List (UdpcapEvent ℕ) :=
  [⟨⟨.ok, "", ""⟩, datagramFrom (1, 0) [] (Nat.zero_le _)⟩,
    ⟨⟨.ok, "", ""⟩, datagramFrom (2, 0) [69, 67, 65, 76, 5, 0, 0, 0, 3, 0, 0, 0, 7,
      0, 0, 0, 1, 0, 0, 0, 2, 0, 0, 0, 8, 9] (Nat.le_of_ble_eq_true rfl)⟩,
    ⟨⟨.socketClosed, "", ""⟩, datagramFrom (0, 0) [] (Nat.zero_le _)⟩]

theorem senders_messageEvents {d : ReceivedDatagram ℕ} (hd : .datagram d ∈ messageEvents) :
    d.senderEndpoint ≠ 0 := by
  simp only [messageEvents, List.mem_cons, ReceiveEvent.datagram.injEq, reduceCtorEq,
    List.not_mem_nil, or_false] at hd
  rcases hd with rfl | rfl <;> decide

theorem pulled_messageEvents :
    let results := pulled (Socket.receiveFrom .littleEndian ⟨#v[69, 67, 65, 76], 5⟩ 0)
      ReceiveResult.stops 2 (⟨0, ∅⟩ : Receiver ℕ) messageEvents
    (results.1.map (fun x => (x.1.senderEndpoint, x.2.1.message, x.2.1.error)),
        results.2.toOption.map fun x => x.2.isEmpty) =
      ([(2, some [8, 9], none), (2, none, some ())], some true) := by
  decide +kernel

theorem receiveLoops_agree_messageEvents :
    ((pulled (Socket.receiveFrom .littleEndian ⟨#v[69, 67, 65, 76], 5⟩ 0) ReceiveResult.stops 2
        (⟨0, ∅⟩ : Receiver ℕ) messageEvents).1.map
          fun x => (x.1.senderEndpoint, x.2.1.message, x.2.1.error)) =
        [(2, some [8, 9], none), (2, none, some ())] ∧
      ((pulled (SocketNpcap.receiveFrom .littleEndian ⟨#v[69, 67, 65, 76], 5⟩ fun a _ => a)
        ReceiveResult.stops 2 (⟨0, ∅⟩ : Receiver ℕ) udpcapMessageEvents).1.map
          fun x => (x.1.senderEndpoint, x.2.1.message, x.2.1.error.map fun _ => ())) =
        [(2, some [8, 9], none), (2, none, some ())] := by
  have hpulled := (Prod.mk.inj pulled_messageEvents).1
  obtain ⟨hsocket, -, hnpcap, hboth⟩ := receiveLoops_agree .littleEndian ⟨#v[69, 67, 65, 76], 5⟩ 0
    (fun a _ => a) (fun _ => ()) 2 ⟨0, ∅⟩ messageEvents (fun d hd => senders_messageEvents hd)
    udpcapMessageEvents
  have hevents : udpcapMessageEvents.map
      (UdpcapEvent.toReceiveEvent (fun a _ => a) fun _ => ()) = messageEvents := rfl
  have hfirst := congrArg Prod.fst hboth
  rw [hevents] at hfirst
  dsimp only at hfirst
  refine ⟨hpulled, ?_⟩
  rw [hsocket, hfirst, List.map_map] at hpulled
  rw [hnpcap, ← hpulled]
  exact List.map_congr_left fun x _ => rfl

end Ecaludp
