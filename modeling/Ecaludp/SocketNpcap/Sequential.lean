import Ecaludp.SocketNpcap.Operations
import Ecaludp.Socket.Received

/-!
# Operations and blocking calls

The wait thread takes one datagram after the other, and what it does with a datagram does not depend
on the operation that the datagram is received for. So all operations together get the results of
blocking calls of `receive_from`, one after the other, on the same datagrams, in the same order
(`operations_sequential`). Only who gets which of them depends on the interleaving.
-/

namespace Ecaludp

open Reassembly Pull

variable {E A : Type} [LinearOrder E]

namespace SocketNpcap

variable {host : ByteOrder} {settings : SocketSettings} {makeEndpoint : A → UInt16 → E}
  {s s' : State E A} {o : Option (Completion E)}

/-- What Udpcap returns. -/
def Action.event : Action A → Option (UdpcapEvent A)
  | .receiveDatagram event => some event
  | _ => none

/-- The completion handler gets the result, and with a message the variable of the operation is what
the variable of the caller is. -/
def Completion.Reports (c : Completion E) (senderEndpoint : E) (result : ReceiveResult Error) :
    Prop :=
  c.result = result ∧ (result.message ≠ none → c.senderEndpoint = senderEndpoint)

theorem receiveNextDatagramFrom_of_packages {r r' t : Receiver E} {event : UdpcapEvent A}
    {result : Option (ReceiveResult Error)}
    (h : receiveNextDatagramFrom host settings makeEndpoint r event = .ok (r', result))
    (hpackages : t.packages = r.packages) :
    ∃ t', receiveNextDatagramFrom host settings makeEndpoint t event = .ok (t', result) ∧
      t'.packages = r'.packages ∧
      ∀ x ∈ result, x.message ≠ none → r'.senderEndpoint = t'.senderEndpoint := by
  unfold receiveNextDatagramFrom at h ⊢
  cases hb : (toEcaludpError event.udpcapError).toBool with
  | true =>
    simp only [hb, if_true] at h ⊢
    cases h
    refine ⟨t, rfl, hpackages, fun x hx hmessage => ?_⟩
    cases hx
    exact absurd rfl hmessage
  | false =>
    simp only [hb, Bool.false_eq_true, if_false] at h ⊢
    rcases hreceive : event.datagram.receive with f | buffer
    · rw [hreceive] at h
      cases h
    · simp only [hreceive, bind, Except.bind, hpackages] at h ⊢
      rcases hhandle : SocketNpcap.handleDatagram (Reassembly.handleDatagram host) settings
        event.datagram.pruneNow event.datagram.env buffer
        (makeEndpoint event.datagram.senderEndpoint.1 event.datagram.senderEndpoint.2)
        ⟨.genericError, ""⟩ r.packages with f | ⟨packages, _ | package, error⟩
      · rw [hhandle] at h
        cases h
      · rw [hhandle] at h
        cases h
        exact ⟨_, rfl, rfl, fun x hx => by cases hx⟩
      · rw [hhandle] at h
        cases h
        exact ⟨_, rfl, rfl, fun x _ _ => rfl⟩

/-! ## Handled datagrams -/

/-- An action handles an event or none: without one nothing is completed and the packages stay; with
one, the callback does the same on its own variable. -/
def Handles (host : ByteOrder) (settings : SocketSettings) (makeEndpoint : A → UInt16 → E)
    (s s' : State E A) (o : Option (Completion E)) : Option (UdpcapEvent A) → Prop
  | none => o = none ∧ s'.packages = s.packages
  | some event => ∀ r : Receiver E, r.packages = s.packages → ∃ r' result,
      receiveNextDatagramFrom host settings makeEndpoint r event = .ok (r', result) ∧
        r'.packages = s'.packages ∧ Option.Rel (fun c x => c.Reports r'.senderEndpoint x) o result

/-- Events are handled in the order in which Udpcap returns them. -/
theorem State.WellFormed.exists_handled (h : s.WellFormed) {action : Action A}
    (hstep : SocketNpcap.step host settings makeEndpoint s action = .ok (s', o)) :
    ∃ handled : Option (UdpcapEvent A),
      s.received.toList ++ action.event.toList = handled.toList ++ s'.received.toList ∧
        Handles host settings makeEndpoint s s' o handled := by
  cases action with
  | asyncReceiveFrom =>
    cases hstep
    exact ⟨none, List.append_nil _, rfl, rfl⟩
  | close =>
    cases hstep
    exact ⟨none, List.append_nil _, rfl, rfl⟩
  | takeRequest =>
    simp only [SocketNpcap.step] at hstep
    split_ifs at hstep
    obtain ⟨s₁, hbelow, heq⟩ := Machine.map_eq_ok.mp hstep
    obtain ⟨socket, invocation, -, rfl⟩ := below_eq_ok.mp hbelow
    cases heq
    exact ⟨none, List.append_nil _, rfl, rfl⟩
  | receiveDatagram event =>
    obtain ⟨s₁, hbelow, heq⟩ := Machine.map_eq_ok.mp hstep
    obtain ⟨socket, invocation, hsocket, rfl⟩ := below_eq_ok.mp hbelow
    obtain ⟨next, hthread, rfl, rfl⟩ := AsyncUdpcapSocket.step_receiveDatagram_eq_ok hsocket
    cases heq
    have hreceived : s.received = none := by
      by_contra hne
      obtain ⟨_, _, _, hhandling⟩ := h.received.mp hne
      rw [hthread] at hhandling
      cases hhandling
    refine ⟨none, ?_, rfl, rfl⟩
    rw [hreceived]
    rfl
  | callHandler =>
    obtain ⟨next, error, recBytes, operation, event, -, -, hevent, hcall⟩ :=
      h.callHandler_eq_ok hstep
    obtain ⟨r, result, hreceive, -, hreceived, -, hpackages, hcases⟩ := readHandler_eq_ok hcall
    refine ⟨some event, ?_, fun t ht => ?_⟩
    · rw [hevent, hreceived]
      rfl
    · obtain ⟨t', ht', hsame, hsender⟩ := receiveNextDatagramFrom_of_packages hreceive ht
      refine ⟨t', result, ht', hsame.trans hpackages.symm, ?_⟩
      rcases hcases with ⟨rfl, rfl, -⟩ | ⟨x, rfl, rfl, -⟩
      · exact .none
      · exact .some ⟨rfl, hsender x rfl⟩
  | rearm =>
    unfold SocketNpcap.step at hstep
    rcases hrearming : s.rearming with _ | operation
    · rw [hrearming] at hstep
      cases hstep
    · rw [hrearming] at hstep
      cases hstep
      exact ⟨none, List.append_nil _, rfl, rfl⟩

/-- A run completes operations with what the callback of one operation, armed again and again,
gives. -/
theorem State.WellFormed.run_handled (h : s.WellFormed) {actions : List (Action A)}
    (hrun : (Machine.run (SocketNpcap.step host settings makeEndpoint) s actions).2 = .ok s') :
    ∃ handled, s.received.toList ++ actions.filterMap Action.event = handled ++ s'.received.toList ∧
      ∀ r : Receiver E, r.packages = s.packages → ∀ n, handled.length ≤ n →
        List.Forall₂ (fun c x => Completion.Reports c x.1.senderEndpoint x.2.1)
          (Machine.run (SocketNpcap.step host settings makeEndpoint) s actions).1.reduceOption
          (pushed (receiveNextDatagramFrom host settings makeEndpoint)
            (fun _ => false) n r handled).1 ∧
        ∃ r', (pushed (receiveNextDatagramFrom host settings makeEndpoint)
          (fun _ => false) n r handled).2 = .ok (r', []) ∧ r'.packages = s'.packages := by
  induction actions generalizing s with
  | nil =>
    cases hrun
    refine ⟨[], List.append_nil _, fun r hr n _ => ?_⟩
    cases n <;> exact ⟨.nil, r, rfl, hr⟩
  | cons action actions ih =>
    rcases haction : SocketNpcap.step host settings makeEndpoint s action with stop | ⟨s₁, o⟩
    · rw [Machine.run_cons_error haction] at hrun
      cases hrun
    · rw [Machine.run_cons_ok haction] at hrun ⊢
      obtain ⟨handled, hevents, hhandles⟩ := h.exists_handled haction
      obtain ⟨rest, hrest, hpushed⟩ := ih (h.step haction).1 hrun
      refine ⟨handled.toList ++ rest, ?_, fun r hr n hn => ?_⟩
      · rw [filterMap_cons_eq, ← List.append_assoc, hevents, List.append_assoc, hrest,
          List.append_assoc]
      · cases handled with
        | none =>
          obtain ⟨rfl, hpackages⟩ := hhandles
          rw [List.reduceOption_cons_of_none]
          exact hpushed r (hr.trans hpackages.symm) n hn
        | some event =>
          obtain ⟨r', result, hcall, hpackages, hreports⟩ := hhandles r hr
          rw [Option.toList_some, List.singleton_append, List.length_cons] at hn
          obtain ⟨n, rfl⟩ : ∃ k, n = k + 1 := ⟨n - 1, by omega⟩
          rw [Option.toList_some, List.singleton_append]
          cases hreports with
          | none =>
            simp only [pushed, hcall, List.reduceOption_cons_of_none]
            exact hpushed r' hpackages (n + 1) (by omega)
          | @some c x hreports =>
            obtain ⟨hresults, hend⟩ := hpushed r' hpackages n (by omega)
            simp only [pushed, hcall, List.reduceOption_cons_of_some, Bool.false_eq_true, if_false]
            exact ⟨.cons hreports hresults, hend⟩

/-- Operations are blocking calls. However threads interleave and whatever number of operations is
under way, the datagrams that Udpcap returned, all but the one in hand, were handled in this order.
The results of the operations, in the order of the completion handlers, are those of blocking calls
of `receive_from` on these datagrams, with the same senders, and the packages in the end are the
same. -/
theorem operations_sequential (senderEndpoint : ℕ → E) {actions : List (Action A)}
    (hrun : (Machine.run (SocketNpcap.step host settings makeEndpoint)
      { senderEndpoint } actions).2 = .ok s) :
    ∃ handled, actions.filterMap Action.event = handled ++ s.received.toList ∧
      ∀ r : Receiver E, r.packages = ∅ → ∀ n, handled.length ≤ n →
        List.Forall₂ (fun c x => Completion.Reports c x.1.senderEndpoint x.2.1)
          (Machine.run (SocketNpcap.step host settings makeEndpoint)
            { senderEndpoint } actions).1.reduceOption
          (pulled (receiveFrom host settings makeEndpoint) (fun _ => false) n r handled).1 ∧
        ∃ r', (pulled (receiveFrom host settings makeEndpoint) (fun _ => false) n r handled).2 =
          .ok (r', []) ∧ r'.packages = s.packages := by
  obtain ⟨handled, hevents, hpushed⟩ := (wellFormed_init senderEndpoint).run_handled hrun
  refine ⟨handled, hevents, fun r hr n hn => ?_⟩
  rw [pulled_eq_pushed (fun r js _ => receiveFrom_eq_next host settings makeEndpoint js r)]
  exact hpushed r hr n hn

theorem operations_sequential_interleaving :
    ∃ (s : State ℕ ℕ) (handled : List (UdpcapEvent ℕ)), [twoBytes] = handled ++ s.received.toList ∧
      List.Forall₂ (fun c x => Completion.Reports c x.1.senderEndpoint x.2.1)
        (Machine.run (SocketNpcap.step .littleEndian ⟨#v[69, 67, 65, 76], 5⟩ fun a _ => a)
          ⟨{}, none, none, 0, fun _ => 0, ∅⟩ interleaving).1.reduceOption
        (pulled (receiveFrom .littleEndian ⟨#v[69, 67, 65, 76], 5⟩ fun a _ => a) (fun _ => false)
          handled.length ⟨0, ∅⟩ handled).1 ∧
      ∃ r', (pulled (receiveFrom .littleEndian ⟨#v[69, 67, 65, 76], 5⟩ fun a _ => a)
        (fun _ => false)
        handled.length ⟨0, ∅⟩ handled).2 = .ok (r', []) ∧ r'.packages = s.packages := by
  obtain ⟨s, hrun, -⟩ := run_interleaving
  obtain ⟨handled, hevents, hpulled⟩ := operations_sequential (fun _ => 0) hrun
  exact ⟨s, handled, hevents, hpulled ⟨0, ∅⟩ rfl _ (Nat.le_refl _)⟩

end SocketNpcap

end Ecaludp
