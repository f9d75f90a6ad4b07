import Ecaludp.SocketNpcap.Sequential

/-!
# Operations and handled datagrams

The completion handlers of all operations together get the messages that `handle_datagram` returns
for the datagrams without an error, in the order in which Udpcap returned them
(`completed_messages`). So what is known of runs of `handle_datagram` holds of the messages that the
operations are completed with.
-/

namespace Ecaludp

open Reassembly Pull

variable {E A : Type} [LinearOrder E]

/-- The call of `handle_datagram` for a datagram that Udpcap returned without an error. -/
def UdpcapEvent.receipt (makeEndpoint : A → UInt16 → E) (event : UdpcapEvent A) :
    Option (Receipt E) :=
  if (toEcaludpError event.udpcapError).toBool then none
  else event.datagram.receipt
    (makeEndpoint event.datagram.senderEndpoint.1 event.datagram.senderEndpoint.2)

namespace SocketNpcap

variable {host : ByteOrder} {settings : SocketSettings} {makeEndpoint : A → UInt16 → E}
  {s : State E A}

theorem handlesReceipt (host : ByteOrder) (settings : SocketSettings)
    (makeEndpoint : A → UInt16 → E) :
    HandlesReceipt host settings (receiveNextDatagramFrom host settings makeEndpoint)
      (UdpcapEvent.receipt makeEndpoint) := by
  intro r event r' result h
  unfold UdpcapEvent.receipt
  cases hb : (toEcaludpError event.udpcapError).toBool with
  | true =>
    simp only [receiveNextDatagramFrom, hb, if_true] at h ⊢
    cases h
    exact ⟨rfl, rfl⟩
  | false =>
    simp only [receiveNextDatagramFrom, hb, Bool.false_eq_true, if_false] at h ⊢
    rcases hreceive : event.datagram.receive with f | buffer
    · rw [hreceive] at h
      cases h
    · simp only [hreceive, bind, Except.bind] at h
      rcases hhandle : SocketNpcap.handleDatagram (Reassembly.handleDatagram host) settings
        event.datagram.pruneNow event.datagram.env buffer
        (makeEndpoint event.datagram.senderEndpoint.1 event.datagram.senderEndpoint.2)
        ⟨.genericError, ""⟩ r.packages with f | ⟨packages, package, error⟩
      · rw [hhandle] at h
        cases h
      · rw [hhandle] at h
        rw [run_receipt_of_handleDatagram hreceive hhandle]
        cases package <;> cases h <;> exact ⟨rfl, rfl⟩

theorem messages_of_reports {completions : List (Completion E)}
    {results : List (Receiver E × ReceiveResult Error × List (UdpcapEvent A))}
    (h : List.Forall₂ (fun c x => Completion.Reports c x.1.senderEndpoint x.2.1)
      completions results) :
    completions.filterMap (fun c => c.result.message) =
      results.filterMap fun x => x.2.1.message := by
  induction h with
  | nil => rfl
  | cons hreports _ ih => rw [filterMap_cons_eq, filterMap_cons_eq, hreports.1, ih]

/-- Operations hand over what is reassembled. However threads interleave, the datagrams that Udpcap
returned, all but the one in hand, were handled in this order, and the messages that operations are
completed with are those that `handle_datagram` returns for them, one after the other. -/
theorem completed_messages (senderEndpoint : ℕ → E) {actions : List (Action A)}
    (hrun : (Machine.run (SocketNpcap.step host settings makeEndpoint)
      { senderEndpoint } actions).2 = .ok s) :
    ∃ handled, actions.filterMap Action.event = handled ++ s.received.toList ∧
      (Machine.run (Socket.step host settings) ∅
        (handled.filterMap (UdpcapEvent.receipt makeEndpoint))).2 = .ok s.packages ∧
      (Machine.run (SocketNpcap.step host settings makeEndpoint)
        { senderEndpoint } actions).1.reduceOption.filterMap
          (fun c => c.result.message) =
        (Machine.run (Socket.step host settings) ∅
          (handled.filterMap (UdpcapEvent.receipt makeEndpoint))).1.filterMap Outcome.message := by
  obtain ⟨handled, hevents, hpushed⟩ := (wellFormed_init senderEndpoint).run_handled hrun
  obtain ⟨hreports, r', hend, hpackages⟩ :=
    hpushed ⟨senderEndpoint 0, ∅⟩ rfl handled.length (Nat.le_refl _)
  obtain ⟨taken, htaken, hreassembled, hmessages⟩ :=
    (handlesReceipt host settings makeEndpoint).messages_of_pushed hend
  rw [List.append_nil] at htaken
  subst htaken
  refine ⟨handled, hevents, ?_, ?_⟩
  · rw [← hpackages]
    exact hreassembled
  · rw [messages_of_reports hreports]
    exact hmessages

theorem completed_messages_interleaving :
    ∃ (s : State ℕ ℕ) (handled : List (UdpcapEvent ℕ)), [twoBytes] = handled ++ s.received.toList ∧
      (Machine.run (Socket.step .littleEndian ⟨#v[69, 67, 65, 76], 5⟩) ∅
        (handled.filterMap (UdpcapEvent.receipt fun a _ => a))).2 = .ok s.packages ∧
      (Machine.run (SocketNpcap.step .littleEndian ⟨#v[69, 67, 65, 76], 5⟩ fun a _ => a)
          ⟨{}, none, none, 0, fun _ => 0, ∅⟩ interleaving).1.reduceOption.filterMap
            (fun c => c.result.message) =
        (Machine.run (Socket.step .littleEndian ⟨#v[69, 67, 65, 76], 5⟩) ∅
          (handled.filterMap (UdpcapEvent.receipt fun a _ => a))).1.filterMap Outcome.message := by
  obtain ⟨s, hrun, -⟩ := run_interleaving
  obtain ⟨handled, hhandled⟩ := completed_messages (fun _ => 0) hrun
  exact ⟨s, handled, hhandled⟩

end SocketNpcap

end Ecaludp
