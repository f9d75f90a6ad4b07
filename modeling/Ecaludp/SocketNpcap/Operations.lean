import Ecaludp.SocketNpcap
import Ecaludp.AsyncUdpcapSocket.Requests
import Ecaludp.Socket.Loops

/-!
# What becomes of asynchronous operations

However threads interleave, an operation is completed once at most, and until then it is in the
queue, in the hand of the wait thread, or, one at most, dropped when the thread returned
(`operations_accounted`). The results of all operations together are those of blocking calls of
`receive_from`, one after the other, on the same datagrams (`operations_sequential`).
-/

namespace Ecaludp

open Reassembly

variable {E A : Type} [LinearOrder E]

namespace AsyncUdpcapSocket

theorem queue_of_takeRequest {H : Type} {s s' : AsyncUdpcapSocket H} {o : Option (Invocation H)}
    (h : step s .takeRequest = .ok (s', o)) :
    s'.asyncReceiveFromParametersQueue = s.asyncReceiveFromParametersQueue.tail := by
  obtain ⟨isClosed, queue, waitThread⟩ := s
  cases waitThread with
  | waiting =>
    obtain ⟨s₁, htake, heq⟩ := Machine.map_eq_ok.mp h
    cases heq
    unfold takeRequest at htake
    cases isClosed <;> rcases queue with _ | ⟨next, _ | ⟨second, queue⟩⟩ <;> cases htake <;> rfl
  | receiving next => cases h
  | handling next error recBytes => cases h
  | returned => cases h

/-- The operations of requests. -/
def operations (requests : List (AsyncReceiveFromParameters ℕ)) : List ℕ :=
  requests.filterMap AsyncReceiveFromParameters.readHandler

end AsyncUdpcapSocket

namespace SocketNpcap

open AsyncUdpcapSocket (operations inHand)

variable {host : ByteOrder} {settings : SocketSettings} {makeEndpoint : A → UInt16 → E}
  {s s' s'' : State E A} {o : Option (Completion E)}

/-- The operations that are under way. -/
def State.pending (s : State E A) : List ℕ :=
  s.rearming.toList ++ operations (s.socket.inHand ++ s.socket.asyncReceiveFromParametersQueue)

/-- Every request has a handler; the variables of the request in hand are filled when the handler is
about to be called, and then no request is about to be made. -/
structure State.WellFormed (s : State E A) : Prop where
  handlers : ∀ next ∈ s.socket.inHand ++ s.socket.asyncReceiveFromParametersQueue,
    next.readHandler ≠ none
  received : s.received ≠ none ↔ ∃ next error recBytes, s.socket.waitThread =
      .handling next error recBytes
  rearming : s.rearming ≠ none → s.socket.waitThread = .waiting

theorem wellFormed_init (senderEndpoint : ℕ → E) :
    State.WellFormed ({ senderEndpoint } : State E A) where
  handlers next h := by cases h
  received := by simp
  rearming h := absurd rfl h

theorem below_eq_ok {action : AsyncUdpcapSocket.Action ℕ} :
    s.below action = .ok s' ↔
      ∃ socket invocation, s.socket.step action = .ok (socket, invocation) ∧
        { s with socket } = s' := by
  unfold State.below
  rcases s.socket.step action with e | ⟨socket, invocation⟩
  · simp
  · simp

/-! ## Accounts -/

/-- From one state to another these operations were completed, and one at most was dropped when the
wait thread returned; all others that were under way or started are under way. -/
structure Accounts (s s' : State E A) (completed dropped : List ℕ) : Prop where
  started : s.started ≤ s'.started
  balance : (completed + dropped + s'.pending : Multiset ℕ) =
    s.pending + List.range' s.started (s'.started - s.started)
  dropped_le : dropped.length ≤ 1
  dropped_ne : dropped ≠ [] → s.socket.waitThread ≠ .returned ∧ s'.socket.isClosed = true ∧
    s'.socket.waitThread = .returned
  isClosed : s.socket.isClosed = true → s'.socket.isClosed = true
  returned : s.socket.waitThread = .returned → s'.socket.waitThread = .returned

theorem Accounts.refl (s : State E A) : Accounts s s [] [] where
  started := Nat.le_refl _
  balance := by simp
  dropped_le := Nat.zero_le _
  dropped_ne h := absurd rfl h
  isClosed := id
  returned := id

theorem Accounts.trans {completed completed' dropped dropped' : List ℕ}
    (h : Accounts s s' completed dropped) (h' : Accounts s' s'' completed' dropped') :
    Accounts s s'' (completed ++ completed') (dropped ++ dropped') where
  started := h.started.trans h'.started
  balance := by
    have hrange : (List.range' s.started (s''.started - s.started) : Multiset ℕ) =
        List.range' s.started (s'.started - s.started) +
          List.range' s'.started (s''.started - s'.started) := by
      have happend := List.range'_append_1 (s := s.started) (m := s'.started - s.started)
        (n := s''.started - s'.started)
      have hle := h.started
      have hle' := h'.started
      rw [show s.started + (s'.started - s.started) = s'.started by omega,
        show s'.started - s.started + (s''.started - s'.started) = s''.started - s.started by omega]
        at happend
      rw [← happend, Multiset.coe_add]
    rw [hrange, ← add_assoc, ← h.balance, ← Multiset.coe_add, ← Multiset.coe_add]
    calc (completed + completed' + (dropped + dropped') + s''.pending : Multiset ℕ)
        = completed + dropped + (completed' + dropped' + s''.pending) := by abel
      _ = completed + dropped +
        (s'.pending + List.range' s'.started (s''.started - s'.started)) := by
        rw [h'.balance]
      _ = _ := by abel
  dropped_le := by
    rw [List.length_append]
    rcases dropped with _ | ⟨operation, dropped⟩
    · rw [List.length_nil, Nat.zero_add]
      exact h'.dropped_le
    · -- after the thread has returned it drops nothing
      have hreturned := (h.dropped_ne (List.cons_ne_nil _ _)).2.2
      rcases dropped' with _ | ⟨operation', dropped'⟩
      · exact h.dropped_le
      · exact absurd hreturned (h'.dropped_ne (List.cons_ne_nil _ _)).1
  dropped_ne hne := by
    rcases dropped with _ | ⟨operation, dropped⟩
    · obtain ⟨hnot, hclosed, hreturned⟩ := h'.dropped_ne hne
      exact ⟨fun hs => hnot (h.returned hs), hclosed, hreturned⟩
    · obtain ⟨hnot, hclosed, hreturned⟩ := h.dropped_ne (List.cons_ne_nil _ _)
      exact ⟨hnot, h'.isClosed hclosed, h'.returned hreturned⟩
  isClosed hs := h'.isClosed (h.isClosed hs)
  returned hs := h'.returned (h.returned hs)

/-! ## One action -/

theorem readHandler_eq_ok {operation : ℕ} {event : UdpcapEvent A}
    (h : s.readHandler host settings makeEndpoint operation event = .ok (s', o)) :
    ∃ r result, receiveNextDatagramFrom host settings makeEndpoint
        ⟨s.senderEndpoint operation, s.packages⟩ event = .ok (r, result) ∧
      s'.socket = s.socket ∧ s'.received = s.received ∧ s'.started = s.started ∧
      s'.packages = r.packages ∧
      (result = none ∧ o = none ∧ s'.rearming = some operation ∨
        ∃ x, result = some x ∧ o = some ⟨operation, r.senderEndpoint, x⟩ ∧
          s'.rearming = s.rearming) := by
  unfold State.readHandler at h
  rcases hcall : receiveNextDatagramFrom host settings makeEndpoint
      ⟨s.senderEndpoint operation, s.packages⟩ event with f | ⟨r, _ | x⟩
  · rw [hcall] at h
    cases h
  · rw [hcall] at h
    cases h
    exact ⟨r, none, rfl, rfl, rfl, rfl, rfl, Or.inl ⟨rfl, rfl, rfl⟩⟩
  · rw [hcall] at h
    cases h
    exact ⟨r, some x, rfl, rfl, rfl, rfl, rfl, Or.inr ⟨x, rfl, rfl, rfl⟩⟩

/-- What the wait thread does when it calls a handler. -/
theorem State.WellFormed.callHandler_eq_ok (h : s.WellFormed)
    (hstep : step host settings makeEndpoint s .callHandler = .ok (s', o)) :
    ∃ next error recBytes operation event, s.socket.waitThread = .handling next error recBytes ∧
      next.readHandler = some operation ∧ s.received = some event ∧
      State.readHandler host settings makeEndpoint
        { s with socket := { s.socket with waitThread := .waiting }, received := none }
          operation event = .ok (s', o) := by
  simp only [step] at hstep
  rcases hcall : s.socket.step .callHandler with e | ⟨socket, invocation⟩
  · rw [hcall] at hstep
    cases hstep
  · obtain ⟨next, error, recBytes, hthread, rfl, rfl⟩ :=
      AsyncUdpcapSocket.step_callHandler_eq_ok hcall
    obtain ⟨event, hevent⟩ := Option.ne_none_iff_exists'.mp (h.received.mpr ⟨_, _, _, hthread⟩)
    have hnext : next ∈ s.socket.inHand ++ s.socket.asyncReceiveFromParametersQueue := by
      rw [inHand, hthread]
      exact List.mem_cons_self
    obtain ⟨operation, hoperation⟩ := Option.ne_none_iff_exists'.mp (h.handlers next hnext)
    rw [hcall, hoperation, hevent] at hstep
    exact ⟨next, error, recBytes, operation, event, hthread, hoperation, hevent, hstep⟩

/-- An action that starts, completes and drops nothing. -/
theorem accounts_of_pending (hstarted : s'.started = s.started)
    (hpending : (s'.pending : Multiset ℕ) = s.pending)
    (hclosed : s.socket.isClosed = true → s'.socket.isClosed = true)
    (hreturned : s.socket.waitThread = .returned → s'.socket.waitThread = .returned) :
    Accounts s s' [] [] where
  started := Nat.le_of_eq hstarted.symm
  balance := by
    rw [hstarted, Nat.sub_self, hpending]
    simp
  dropped_le := Nat.zero_le _
  dropped_ne h := absurd rfl h
  isClosed := hclosed
  returned := hreturned

theorem operations_concat (requests : List (AsyncReceiveFromParameters ℕ)) (operation : ℕ) :
    operations (requests ++ [⟨some operation⟩]) = operations requests ++ [operation] :=
  List.filterMap_append

theorem State.WellFormed.asyncReceiveFrom (h : s.WellFormed) (operation : ℕ) :
    let socket : AsyncUdpcapSocket ℕ := { s.socket with
      asyncReceiveFromParametersQueue :=
        s.socket.asyncReceiveFromParametersQueue ++ [⟨some operation⟩] }
    (∀ next ∈ socket.inHand ++ socket.asyncReceiveFromParametersQueue, next.readHandler ≠ none) ∧
      operations (socket.inHand ++ socket.asyncReceiveFromParametersQueue) =
        operations (s.socket.inHand ++ s.socket.asyncReceiveFromParametersQueue) ++
          [operation] := by
  refine ⟨fun next hnext => ?_, ?_⟩
  · rw [← List.append_assoc, List.mem_append] at hnext
    rcases hnext with hnext | hnext
    · exact h.handlers next hnext
    · rw [List.mem_singleton.mp hnext]
      exact Option.some_ne_none _
  · rw [← List.append_assoc]
    exact operations_concat _ _

theorem State.WellFormed.takeRequest (h : s.WellFormed)
    (hstep : step host settings makeEndpoint s .takeRequest = .ok (s', o)) :
    s'.WellFormed ∧ ∃ dropped, Accounts s s' (o.map Completion.operation).toList dropped := by
  simp only [step] at hstep
  split_ifs at hstep with hrearming
  obtain ⟨s₁, hbelow, heq⟩ := Machine.map_eq_ok.mp hstep
  obtain ⟨socket, invocation, hsocket, rfl⟩ := below_eq_ok.mp hbelow
  cases heq
  have hrearming : s.rearming = none := Option.not_isSome_iff_eq_none.mp hrearming
  have hqueue := AsyncUdpcapSocket.queue_of_takeRequest hsocket
  obtain ⟨hthread, -, hclosed, hcases⟩ := AsyncUdpcapSocket.step_takeRequest_eq_ok hsocket
  have hreceived : ¬ s.received ≠ none := by
    rw [h.received, hthread]
    rintro ⟨_, _, _, heq⟩
    cases heq
  have hpending : s.pending = operations s.socket.asyncReceiveFromParametersQueue := by
    unfold State.pending
    simp only [hrearming, inHand, hthread, Option.toList_none, List.nil_append]
  have hhandlers := h.handlers
  rw [inHand, hthread, List.nil_append] at hhandlers
  rcases hcases with ⟨hisClosed, hlength, hreturned⟩ | ⟨-, next, hreceiving, hnext⟩
  · -- what was in the queue is dropped
    have hnil : socket.asyncReceiveFromParametersQueue = [] := by
      rw [hqueue, ← List.length_eq_zero_iff, List.length_tail]
      omega
    refine ⟨⟨?_, ?_, fun hne => absurd hrearming hne⟩,
      operations s.socket.asyncReceiveFromParametersQueue, Nat.le_refl _, ?_, ?_, fun _ => ?_, ?_,
      fun _ => hreturned⟩
    · simp [inHand, hreturned, hnil]
    · simp only [hreturned, reduceCtorEq, exists_false, iff_false]
      exact hreceived
    · rw [hpending, Nat.sub_self]
      simp [State.pending, hrearming, inHand, hreturned, hnil, operations]
    · exact (List.length_filterMap_le _ _).trans hlength
    · exact ⟨by rw [hthread]; simp, by rw [hclosed]; exact hisClosed, hreturned⟩
    · rw [hclosed]
      exact id
  · refine ⟨⟨?_, ?_, fun hne => absurd hrearming hne⟩, [], accounts_of_pending rfl ?_ ?_ ?_⟩
    · simp only [inHand, hreceiving, List.singleton_append, hnext]
      exact hhandlers
    · simp only [hreceiving, reduceCtorEq, exists_false, iff_false]
      exact hreceived
    · rw [hpending]
      simp only [State.pending, hrearming, inHand, hreceiving, List.singleton_append, hnext,
        Option.toList_none, List.nil_append]
    · rw [hclosed]
      exact id
    · rw [hthread]
      intro heq
      cases heq

/-- The wait thread calls a handler: the operation is completed, or makes the next request. -/
theorem State.WellFormed.callHandler (h : s.WellFormed)
    (hstep : step host settings makeEndpoint s .callHandler = .ok (s', o)) :
    s'.WellFormed ∧ ∃ dropped, Accounts s s' (o.map Completion.operation).toList dropped := by
  obtain ⟨next, error, recBytes, operation, event, hthread, hoperation, hevent, hcall⟩ :=
    h.callHandler_eq_ok hstep
  obtain ⟨r, result, -, hsocket, hreceived, hstarted, -, hcases⟩ := readHandler_eq_ok hcall
  have hrearming : s.rearming = none := by
    by_contra hne
    rw [h.rearming hne] at hthread
    cases hthread
  have hhandlers := h.handlers
  rw [inHand, hthread] at hhandlers
  have hpending : s.pending = operation :: operations s.socket.asyncReceiveFromParametersQueue := by
    unfold State.pending
    simp only [hrearming, inHand, hthread, Option.toList_none, List.nil_append,
      List.singleton_append, operations, List.filterMap_cons_some hoperation]
  have hpending' :
      s'.pending = s'.rearming.toList ++ operations s.socket.asyncReceiveFromParametersQueue := by
    unfold State.pending
    rw [hsocket]
    rfl
  refine ⟨⟨?_, ?_, fun _ => ?_⟩, [], Nat.le_of_eq hstarted.symm, ?_, Nat.zero_le _,
    fun hne => absurd rfl hne, ?_, ?_⟩
  · rw [hsocket]
    exact fun next' hnext => hhandlers next' (List.mem_cons_of_mem _ hnext)
  · rw [hsocket, hreceived]
    simp
  · rw [hsocket]
  · rw [hpending, hpending', hstarted]
    rcases hcases with ⟨-, rfl, hrearmed⟩ | ⟨x, -, rfl, hrearmed⟩
    · rw [hrearmed]
      simp
    · have hnone : s'.rearming = none := hrearmed.trans hrearming
      rw [hnone]
      simp only [Option.map_some, Option.toList_some, Option.toList_none, List.nil_append,
        Multiset.coe_singleton, Multiset.coe_nil, add_zero, Nat.sub_self, List.range'_zero]
      exact Multiset.singleton_add operation _
  · rw [hsocket]
    exact id
  · rw [hthread]
    intro heq
    cases heq

/-- One action keeps the accounts. -/
theorem State.WellFormed.step (h : s.WellFormed) {action : Action A}
    (hstep : step host settings makeEndpoint s action = .ok (s', o)) :
    s'.WellFormed ∧ ∃ dropped, Accounts s s' (o.map Completion.operation).toList dropped := by
  cases action with
  | asyncReceiveFrom =>
    cases hstep
    obtain ⟨hhandlers, hoperations⟩ := h.asyncReceiveFrom s.started
    refine ⟨⟨hhandlers, h.received, h.rearming⟩, [], Nat.le_succ _, ?_, Nat.zero_le _,
      fun hne => absurd rfl hne, id, id⟩
    unfold State.pending
    simp only at hoperations ⊢
    rw [hoperations, Nat.add_sub_cancel_left, ← List.append_assoc, ← Multiset.coe_add]
    simp
  | close =>
    cases hstep
    exact ⟨⟨h.handlers, h.received, h.rearming⟩, [], accounts_of_pending rfl rfl (fun _ => rfl) id⟩
  | takeRequest => exact h.takeRequest hstep
  | receiveDatagram event =>
    obtain ⟨s₁, hbelow, heq⟩ := Machine.map_eq_ok.mp hstep
    obtain ⟨socket, invocation, hsocket, rfl⟩ := below_eq_ok.mp hbelow
    obtain ⟨next, hthread, rfl, rfl⟩ := AsyncUdpcapSocket.step_receiveDatagram_eq_ok hsocket
    cases heq
    have hhandlers := h.handlers
    rw [inHand, hthread] at hhandlers
    have hrearming : s.rearming = none := by
      by_contra hne
      rw [h.rearming hne] at hthread
      cases hthread
    refine ⟨⟨hhandlers, iff_of_true (Option.some_ne_none _) ⟨_, _, _, rfl⟩,
      fun hne => absurd hrearming hne⟩, [], accounts_of_pending rfl ?_ id fun hreturned => ?_⟩
    · unfold State.pending
      simp only [inHand, hthread]
    · rw [hthread] at hreturned
      cases hreturned
  | callHandler => exact h.callHandler hstep
  | rearm =>
    unfold SocketNpcap.step at hstep
    rcases hrearming : s.rearming with _ | operation
    · rw [hrearming] at hstep
      cases hstep
    · rw [hrearming] at hstep
      cases hstep
      obtain ⟨hhandlers, hoperations⟩ := h.asyncReceiveFrom operation
      refine ⟨⟨hhandlers, h.received, fun hne => absurd rfl hne⟩, [],
        accounts_of_pending rfl ?_ id id⟩
      unfold State.pending
      simp only at hoperations ⊢
      rw [hoperations, hrearming]
      simp

theorem ne_badFunctionCall_of_below {action : AsyncUdpcapSocket.Action ℕ} {stop : Stop}
    {f : State E A → State E A × Option (Completion E)} (h : (s.below action).map f = .error stop) :
    stop ≠ .badFunctionCall := by
  rcases hbelow : s.below action with stop' | s₁
  · rw [hbelow] at h
    cases h
    unfold State.below at hbelow
    split at hbelow
    · cases hbelow
    · cases hbelow
      simp
  · rw [hbelow] at h
    cases h

theorem State.WellFormed.ne_badFunctionCall (h : s.WellFormed) {action : Action A} {stop : Stop}
    (hstep : SocketNpcap.step host settings makeEndpoint s action = .error stop) :
    stop ≠ .badFunctionCall := by
  cases action with
  | asyncReceiveFrom => cases hstep
  | close => cases hstep
  | takeRequest =>
    unfold SocketNpcap.step at hstep
    simp only at hstep
    split_ifs at hstep
    · cases hstep
      simp
    · exact ne_badFunctionCall_of_below hstep
  | receiveDatagram event => exact ne_badFunctionCall_of_below hstep
  | callHandler =>
    unfold SocketNpcap.step at hstep
    simp only at hstep
    rcases hcall : s.socket.step .callHandler with e | ⟨socket, invocation⟩
    · rw [hcall] at hstep
      cases hstep
      simp
    · obtain ⟨next, error, recBytes, hthread, rfl, rfl⟩ :=
        AsyncUdpcapSocket.step_callHandler_eq_ok hcall
      obtain ⟨event, hevent⟩ := Option.ne_none_iff_exists'.mp (h.received.mpr ⟨_, _, _, hthread⟩)
      have hnext : next ∈ s.socket.inHand ++ s.socket.asyncReceiveFromParametersQueue := by
        rw [inHand, hthread]
        exact List.mem_cons_self
      obtain ⟨operation, hoperation⟩ := Option.ne_none_iff_exists'.mp (h.handlers next hnext)
      rw [hcall, hoperation, hevent] at hstep
      simp only [State.readHandler] at hstep
      split at hstep
      · cases hstep
        simp
      · split at hstep <;> cases hstep
  | rearm =>
    unfold SocketNpcap.step at hstep
    simp only at hstep
    split at hstep
    · exact ne_badFunctionCall_of_below hstep
    · cases hstep
      simp

/-! ## Runs -/

variable {actions : List (Action A)}

theorem State.WellFormed.run (h : s.WellFormed)
    (hrun : (Machine.run (SocketNpcap.step host settings makeEndpoint) s actions).2 = .ok s') :
    s'.WellFormed ∧ ∃ dropped, Accounts s s'
      ((Machine.run (SocketNpcap.step host settings makeEndpoint) s actions).1.reduceOption.map
        Completion.operation) dropped := by
  induction actions generalizing s with
  | nil =>
    cases hrun
    exact ⟨h, [], .refl _⟩
  | cons action actions ih =>
    rcases haction : SocketNpcap.step host settings makeEndpoint s action with stop | ⟨s₁, o⟩
    · rw [Machine.run_cons_error haction] at hrun
      cases hrun
    · rw [Machine.run_cons_ok haction] at hrun ⊢
      obtain ⟨hwf, dropped, haccounts⟩ := h.step haction
      obtain ⟨hwf', dropped', haccounts'⟩ := ih hwf hrun
      refine ⟨hwf', dropped ++ dropped', ?_⟩
      have htrans := haccounts.trans haccounts'
      cases o with
      | none => exact htrans
      | some c => exact htrans

/-- Every operation is accounted for. However threads interleave, the wait thread calls no empty
function, and the operations that were started are those that were completed, each once, those that
are under way, and one at most that was dropped, which happens only when the socket was closed and
the thread returned. -/
theorem operations_accounted (host : ByteOrder) (settings : SocketSettings)
    (makeEndpoint : A → UInt16 → E) (senderEndpoint : ℕ → E) (actions : List (Action A)) :
    (Machine.run (SocketNpcap.step host settings makeEndpoint) { senderEndpoint } actions).2 ≠
        .error .badFunctionCall ∧
      ∀ s, (Machine.run (SocketNpcap.step host settings makeEndpoint)
        { senderEndpoint } actions).2 = .ok s →
        ∃ dropped, ((Machine.run (SocketNpcap.step host settings makeEndpoint)
              { senderEndpoint } actions).1.reduceOption.map Completion.operation ++
            dropped ++ s.pending).Perm (List.range s.started) ∧
          dropped.length ≤ 1 ∧
          (dropped ≠ [] → s.socket.isClosed = true ∧ s.socket.waitThread = .returned) := by
  constructor
  · intro herror
    have hallowed : Stop.badFunctionCall ≠ .badFunctionCall :=
      Machine.error_of_run (I := State.WellFormed) (fun s action s' o h hstep => (h.step hstep).1)
        (fun s action stop h hstep => h.ne_badFunctionCall hstep)
          (wellFormed_init senderEndpoint) herror
    exact hallowed rfl
  · intro s hrun
    obtain ⟨-, dropped, haccounts⟩ := (wellFormed_init senderEndpoint).run hrun
    refine ⟨dropped, ?_, haccounts.dropped_le, fun hne => (haccounts.dropped_ne hne).2⟩
    have hbalance := haccounts.balance
    rw [← Multiset.coe_eq_coe, ← Multiset.coe_add, ← Multiset.coe_add, hbalance,
      List.range_eq_range']
    rfl

/-- A datagram with two bytes from address 3. -/
def twoBytes : UdpcapEvent ℕ where
  udpcapError := ⟨.ok, "", ""⟩
  datagram :=
    { bytes := [69, 67, 65, 76, 5, 0, 0, 0, 3, 0, 0, 0, 7, 0, 0, 0, 1, 0, 0, 0, 2, 0, 0, 0, 4, 6]
      length_le := Nat.le_of_ble_eq_true rfl
      senderEndpoint := (3, 0)
      pooled := .empty
      fresh := fun _ => 0
      pruneNow := 0
      env := ⟨0, .empty, fun _ => 0⟩ }

/-- Two operations are started; one gets a message, and the other one is still in the queue when the
socket is closed. -/
def interleaving : List (Action ℕ) :=
  [.asyncReceiveFrom, .takeRequest, .asyncReceiveFrom, .receiveDatagram twoBytes,
    .callHandler, .close, .takeRequest]

theorem run_interleaving :
    ∃ s, (Machine.run (SocketNpcap.step .littleEndian ⟨#v[69, 67, 65, 76], 5⟩ fun a _ => a)
      ⟨{}, none, none, 0, fun _ => 0, ∅⟩ interleaving).2 = .ok s ∧ s.started = 2 ∧
        s.pending = [] := by
  have hrun : (Machine.run (SocketNpcap.step .littleEndian ⟨#v[69, 67, 65, 76], 5⟩ fun a _ => a)
      ⟨{}, none, none, 0, fun _ => 0, ∅⟩ interleaving).2.toOption.map
        (fun s => (s.started, s.pending)) = some (2, []) := by
    decide +kernel
  rcases h : (Machine.run (SocketNpcap.step .littleEndian ⟨#v[69, 67, 65, 76], 5⟩ fun a _ => a)
    ⟨{}, none, none, 0, fun _ => 0, ∅⟩ interleaving).2 with stop | s
  · rw [h] at hrun
    cases hrun
  · rw [h] at hrun
    obtain ⟨hstarted, hpending⟩ := Prod.mk.inj (Option.some.inj hrun)
    exact ⟨s, rfl, hstarted, hpending⟩

theorem operations_accounted_interleaving :
    ∃ s, (Machine.run (SocketNpcap.step .littleEndian ⟨#v[69, 67, 65, 76], 5⟩ fun a _ => a)
        ⟨{}, none, none, 0, fun _ => 0, ∅⟩ interleaving).2 = .ok s ∧ s.pending = [] ∧
      ∃ dropped, ((Machine.run (SocketNpcap.step .littleEndian ⟨#v[69, 67, 65, 76], 5⟩ fun a _ => a)
          ⟨{}, none, none, 0, fun _ => 0, ∅⟩ interleaving).1.reduceOption.map
            Completion.operation ++ dropped).Perm [0, 1] ∧ dropped.length ≤ 1 ∧
        (dropped ≠ [] → s.socket.isClosed = true ∧ s.socket.waitThread = .returned) := by
  obtain ⟨s, hrun, hstarted, hpending⟩ := run_interleaving
  obtain ⟨dropped, hperm, hdropped⟩ := (operations_accounted .littleEndian
    ⟨#v[69, 67, 65, 76], 5⟩ (fun a _ => a) (fun _ => 0) interleaving).2 s hrun
  rw [hstarted, hpending, List.append_nil] at hperm
  exact ⟨s, hrun, hpending, dropped, hperm, hdropped⟩

end SocketNpcap

end Ecaludp
