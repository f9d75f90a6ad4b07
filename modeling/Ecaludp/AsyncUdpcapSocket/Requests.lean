import Ecaludp.AsyncUdpcapSocket

/-!
# Requests of the asynchronous Udpcap socket

The wait thread calls the handlers in the order of the requests. It leaves its loop when the queue
is empty and the socket is closed, but looks at the queue after it has taken out the next request:
if that was the last one it is dropped. So every request made before `close` has been answered
when the thread returns, exactly if the thread did not take out such a request as the last one
(`served_iff`).
-/

namespace Ecaludp

namespace AsyncUdpcapSocket

variable {H : Type} {actions : List (Action H)} {a : Action H} {s s' : AsyncUdpcapSocket H}

/-! ## What a run has done -/

/-- The handler of a request. -/
def Action.request : Action H → Option H
  | .asyncReceiveFrom readHandler => some readHandler
  | _ => none

def Action.isClose : Action H → Bool
  | .close => true
  | _ => false

/-- The requests made in a run, in order. -/
def requests (actions : List (Action H)) : List H := actions.filterMap Action.request

/-- The actions in front of the first `close`. -/
def beforeClose (actions : List (Action H)) : List (Action H) :=
  actions.takeWhile fun a => !a.isClose

/-- The handlers called in a run, in order. -/
def invoked (actions : List (Action H)) : List (Option H) :=
  (Machine.run step {} actions).1.reduceOption.map Invocation.readHandler

/-- Every request made before `close` has been answered once, in the order of the requests, perhaps
some later ones after them, and nothing else has been called. -/
def Served (actions : List (Action H)) : Prop :=
  ∃ late, requests (beforeClose actions) ++ late <+: requests actions ∧
    invoked actions = (requests (beforeClose actions) ++ late).map some

/-- The socket is closed with one request in the queue, and none was made after `close`. -/
def LastPending (actions : List (Action H)) (s : AsyncUdpcapSocket H) : Prop :=
  s.isClosed = true ∧ s.asyncReceiveFromParametersQueue.length = 1 ∧
    requests actions = requests (beforeClose actions)

/-- Somewhere in the run the thread takes out the last request of a closed socket, which was made
before `close`. -/
def Drops (actions : List (Action H)) : Prop :=
  ∃ before after s, actions = before ++ .takeRequest :: after ∧
    (Machine.run step {} before).2 = .ok s ∧ LastPending before s

/-! ## One more action -/

theorem requests_concat (actions : List (Action H)) (a : Action H) :
    requests (actions ++ [a]) = requests actions ++ a.request.toList := by
  unfold requests
  rw [List.filterMap_append]
  cases h : a.request <;> simp [h]

theorem requests_concat_of_none (h : a.request = none) :
    requests (actions ++ [a]) = requests actions := by
  rw [requests_concat, h]
  exact List.append_nil _

theorem beforeClose_append_of_mem (h : Action.close ∈ actions) (rest : List (Action H)) :
    beforeClose (actions ++ rest) = beforeClose actions := by
  unfold beforeClose
  rw [List.takeWhile_append, if_neg]
  intro hlength
  have hall := List.takeWhile_eq_self_iff.mp
    ((List.takeWhile_prefix _).eq_of_length hlength) _ h
  cases hall

theorem requests_beforeClose_prefix (actions : List (Action H)) :
    requests (beforeClose actions) <+: requests actions :=
  (List.takeWhile_prefix _).filterMap _

theorem invoked_concat {o : Option (Invocation H)} (hrun : (Machine.run step {} actions).2 = .ok s)
    (hstep : step s a = .ok (s', o)) :
    invoked (actions ++ [a]) = invoked actions ++ (o.map Invocation.readHandler).toList := by
  unfold invoked
  rw [Machine.run_append _ hrun, Machine.run_cons_ok hstep, Machine.run_nil,
    List.reduceOption_append, List.map_append]
  cases o <;> rfl

theorem drops_concat (hrun : (Machine.run step {} actions).2 = .ok s) :
    Drops (actions ++ [a]) ↔ Drops actions ∨ a = .takeRequest ∧ LastPending actions s := by
  constructor
  · rintro ⟨before, after, s₁, heq, hbefore, hlast⟩
    rcases List.eq_nil_or_concat' after with rfl | ⟨after, b, rfl⟩
    · obtain ⟨rfl, ha⟩ := List.append_inj' heq rfl
      rw [hrun] at hbefore
      cases hbefore
      exact Or.inr ⟨List.singleton_inj.mp ha, hlast⟩
    · rw [← List.cons_append, ← List.append_assoc] at heq
      exact Or.inl ⟨before, after, s₁, (List.append_inj' heq rfl).1, hbefore, hlast⟩
  · rintro (⟨before, after, s₁, rfl, hbefore, hlast⟩ | ⟨rfl, hlast⟩)
    · exact ⟨before, after ++ [a], s₁, by simp, hbefore, hlast⟩
    · exact ⟨actions, [], s, rfl, hrun, hlast⟩

/-! ## The invariant -/

/-- The request that the thread is working on. -/
def inHand (s : AsyncUdpcapSocket H) : List (AsyncReceiveFromParameters H) :=
  match s.waitThread with
  | .receiving next => [next]
  | .handling next _ _ => [next]
  | _ => []

/-- As long as the thread runs, a request has been answered, is being worked on or is in the queue;
when it has returned, it has dropped one or not. -/
structure Invariant (actions : List (Action H)) (s : AsyncUdpcapSocket H) : Prop where
  isClosed : s.isClosed = true ↔ Action.close ∈ actions
  order : ∃ answered, answered <+: requests actions ∧ invoked actions = answered.map some
  running : s.waitThread ≠ .returned → ¬ Drops actions ∧
    (requests actions).map some = invoked actions ++
      (s.inHand ++ s.asyncReceiveFromParametersQueue).map AsyncReceiveFromParameters.readHandler
  returned : s.waitThread = .returned → s.isClosed = true ∧
    (Drops actions ∧ (invoked actions).length < (requests (beforeClose actions)).length ∨
      ¬ Drops actions ∧ Served actions)

theorem invariant_nil : Invariant ([] : List (Action H)) {} where
  isClosed := by simp
  order := ⟨[], List.nil_prefix, rfl⟩
  running _ := by
    refine ⟨?_, rfl⟩
    rintro ⟨before, after, s, heq, -⟩
    cases before <;> cases heq
  returned h := by cases h

theorem Invariant.asyncReceiveFrom (h : Invariant actions s)
    (hrun : (Machine.run step {} actions).2 = .ok s) (readHandler : H) :
    Invariant (actions ++ [.asyncReceiveFrom readHandler])
      { s with asyncReceiveFromParametersQueue :=
        s.asyncReceiveFromParametersQueue ++ [⟨some readHandler⟩] } := by
  have hrequests : requests (actions ++ [.asyncReceiveFrom readHandler]) =
      requests actions ++ [readHandler] := requests_concat _ _
  have hinvoked : invoked (actions ++ [.asyncReceiveFrom readHandler]) = invoked actions := by
    rw [invoked_concat hrun rfl]
    exact List.append_nil _
  have hdrops : Drops (actions ++ [.asyncReceiveFrom readHandler]) ↔ Drops actions := by
    rw [drops_concat hrun]
    simp
  refine ⟨?_, ?_, ?_, ?_⟩
  · rw [List.mem_append, h.isClosed]
    simp
  · obtain ⟨answered, hprefix, heq⟩ := h.order
    rw [hrequests, hinvoked]
    exact ⟨answered, hprefix.trans (List.prefix_append _ _), heq⟩
  · intro hthread
    obtain ⟨hnot, heq⟩ := h.running hthread
    rw [hdrops, hrequests, hinvoked, List.map_append, heq]
    refine ⟨hnot, ?_⟩
    simp only [List.map_append, List.append_assoc]
    rfl
  · intro hthread
    obtain ⟨hclosed, hcases⟩ := h.returned hthread
    refine ⟨hclosed, ?_⟩
    have hbefore :=
      beforeClose_append_of_mem (h.isClosed.mp hclosed) [.asyncReceiveFrom readHandler]
    unfold Served
    rw [hdrops, hinvoked, hbefore, hrequests]
    refine hcases.imp id (And.imp_right ?_)
    rintro ⟨late, hprefix, heq⟩
    exact ⟨late, hprefix.trans (List.prefix_append _ _), heq⟩

theorem Invariant.of_same (h : Invariant actions s) (hrun : (Machine.run step {} actions).2 = .ok s)
    (hstep : step s a = .ok (s', none)) (hrequest : a.request = none)
    (hclosed : s'.isClosed = true ↔ s.isClosed = true ∨ a = .close)
    (hnot : ¬ (a = .takeRequest ∧ LastPending actions s))
    (hthread : s'.waitThread = .returned ↔ s.waitThread = .returned)
    (hrest : s.waitThread ≠ .returned → s'.inHand ++ s'.asyncReceiveFromParametersQueue =
      s.inHand ++ s.asyncReceiveFromParametersQueue) :
    Invariant (actions ++ [a]) s' := by
  have hrequests : requests (actions ++ [a]) = requests actions := requests_concat_of_none hrequest
  have hinvoked : invoked (actions ++ [a]) = invoked actions := by
    rw [invoked_concat hrun hstep]
    exact List.append_nil _
  have hdrops : Drops (actions ++ [a]) ↔ Drops actions := by
    rw [drops_concat hrun, or_iff_left hnot]
  refine ⟨?_, ?_, ?_, ?_⟩
  · rw [hclosed, h.isClosed, List.mem_append, List.mem_singleton]
    exact or_congr_right eq_comm
  · rw [hrequests, hinvoked]
    exact h.order
  · intro hreturned
    have hreturned' := hthread.not.mp hreturned
    rw [hdrops, hrequests, hinvoked, hrest hreturned']
    exact h.running hreturned'
  · intro hreturned
    obtain ⟨hclosed', hcases⟩ := h.returned (hthread.mp hreturned)
    have hbefore := beforeClose_append_of_mem (h.isClosed.mp hclosed') [a]
    unfold Served
    rw [hdrops, hinvoked, hbefore, hrequests]
    exact ⟨hclosed.mpr (Or.inl hclosed'), hcases⟩

/-- The critical section is entered in front of it only. It ends the thread on a closed socket with
at most one request, and otherwise takes out the first request. -/
theorem step_takeRequest_eq_ok {o : Option (Invocation H)}
    (h : step s .takeRequest = .ok (s', o)) :
    s.waitThread = .waiting ∧ o = none ∧ s'.isClosed = s.isClosed ∧
      (s.isClosed = true ∧ s.asyncReceiveFromParametersQueue.length ≤ 1 ∧
          s'.waitThread = .returned ∨
        ¬ (s.isClosed = true ∧ s.asyncReceiveFromParametersQueue.length = 1) ∧
          ∃ next, s'.waitThread = .receiving next ∧
            next :: s'.asyncReceiveFromParametersQueue = s.asyncReceiveFromParametersQueue) := by
  obtain ⟨isClosed, queue, waitThread⟩ := s
  cases waitThread with
  | waiting =>
    obtain ⟨s₁, htake, heq⟩ := Machine.map_eq_ok.mp h
    cases heq
    refine ⟨rfl, rfl, ?_⟩
    unfold takeRequest at htake
    match isClosed, queue with
    | true, [] =>
      cases htake
      exact ⟨rfl, Or.inl ⟨rfl, Nat.zero_le _, rfl⟩⟩
    | true, [next] =>
      cases htake
      exact ⟨rfl, Or.inl ⟨rfl, Nat.le_refl _, rfl⟩⟩
    | true, next :: second :: queue =>
      cases htake
      exact ⟨rfl, Or.inr ⟨by simp, next, rfl, rfl⟩⟩
    | false, [] => cases htake
    | false, next :: queue =>
      cases hq : queue <;> subst hq <;> cases htake <;>
        exact ⟨rfl, Or.inr ⟨by simp, next, rfl, rfl⟩⟩
  | receiving next => cases h
  | handling next error recBytes => cases h
  | returned => cases h

theorem step_receiveDatagram_eq_ok {udpcapError : UdpcapError} {recBytes : ℕ}
    {o : Option (Invocation H)} (h : step s (.receiveDatagram udpcapError recBytes) = .ok (s', o)) :
    ∃ next, s.waitThread = .receiving next ∧ o = none ∧
      s' = { s with waitThread := .handling next (toEcaludpError udpcapError) recBytes } := by
  obtain ⟨isClosed, queue, waitThread⟩ := s
  cases waitThread with
  | receiving next =>
    cases h
    exact ⟨next, rfl, rfl, rfl⟩
  | waiting => cases h
  | handling next error recBytes => cases h
  | returned => cases h

theorem step_callHandler_eq_ok {o : Option (Invocation H)} (h : step s .callHandler = .ok (s', o)) :
    ∃ next error recBytes, s.waitThread = .handling next error recBytes ∧
      o = some ⟨next.readHandler, error, recBytes⟩ ∧ s' = { s with waitThread := .waiting } := by
  obtain ⟨isClosed, queue, waitThread⟩ := s
  cases waitThread with
  | handling next error recBytes =>
    cases h
    exact ⟨next, error, recBytes, rfl, rfl, rfl⟩
  | waiting => cases h
  | receiving next => cases h
  | returned => cases h

/-- With one request at most that is not answered, this is the last one made before `close`, or all
of those are answered. -/
theorem pending_or_served (hclosed : s.isClosed = true)
    (hqueue : s.asyncReceiveFromParametersQueue.length ≤ 1)
    (heq : (requests actions).map some = invoked actions ++
      s.asyncReceiveFromParametersQueue.map AsyncReceiveFromParameters.readHandler) :
    LastPending actions s ∧ (invoked actions).length < (requests (beforeClose actions)).length ∨
      ¬ LastPending actions s ∧ Served actions := by
  obtain ⟨late, hlate⟩ := requests_beforeClose_prefix actions
  unfold Served
  rw [LastPending, ← hlate, and_iff_right hclosed]
  rw [← hlate] at heq
  rcases hfront : s.asyncReceiveFromParametersQueue with _ | ⟨next, queue⟩
  · -- nothing was in the queue
    rw [hfront, List.map_nil, List.append_nil] at heq
    right
    refine ⟨fun hlast => ?_, late, List.prefix_refl _, heq.symm⟩
    cases hlast.1
  · obtain rfl : queue = [] := by
      rw [hfront, List.length_cons] at hqueue
      exact List.length_eq_zero_iff.mp (by omega)
    rw [hfront, List.map_singleton] at heq
    rcases List.eq_nil_or_concat' late with rfl | ⟨late, last, rfl⟩
    · left
      have hlength := congrArg List.length heq
      rw [List.append_nil] at hlength ⊢
      rw [List.length_map, List.length_append, List.length_singleton] at hlength
      exact ⟨⟨rfl, rfl⟩, by omega⟩
    · right
      rw [← List.append_assoc, List.map_append] at heq
      refine ⟨fun hlast => ?_, late, ?_, (List.append_inj' heq rfl).1.symm⟩
      · have hlength := congrArg List.length hlast.2
        simp at hlength
      · rw [← List.append_assoc]
        exact List.prefix_append _ _

/-- The thread returns: it has dropped a request made before `close`, or served them all. -/
theorem Invariant.returns (h : Invariant actions s)
    (hrun : (Machine.run step {} actions).2 = .ok s) (hthread : s.waitThread = .waiting)
    (hstep : step s .takeRequest = .ok (s', none)) (hclosed : s.isClosed = true)
    (hclosed' : s'.isClosed = true) (hqueue : s.asyncReceiveFromParametersQueue.length ≤ 1)
    (hreturned : s'.waitThread = .returned) :
    Invariant (actions ++ [.takeRequest]) s' := by
  have hrequests : requests (actions ++ [.takeRequest]) = requests actions :=
    requests_concat_of_none rfl
  have hinvoked : invoked (actions ++ [.takeRequest]) = invoked actions := by
    rw [invoked_concat hrun hstep]
    exact List.append_nil _
  have hmem := h.isClosed.mp hclosed
  have hbefore := beforeClose_append_of_mem hmem [.takeRequest]
  obtain ⟨hnot, heq⟩ := h.running (by simp [hthread])
  have hhand : s.inHand = [] := by rw [inHand, hthread]
  rw [hhand, List.nil_append] at heq
  have hdrops : Drops (actions ++ [.takeRequest]) ↔ LastPending actions s := by
    rw [drops_concat hrun, or_iff_right hnot, and_iff_right rfl]
  refine ⟨?_, ?_, ?_, ?_⟩
  · rw [List.mem_append]
    exact iff_of_true hclosed' (Or.inl hmem)
  · rw [hrequests, hinvoked]
    exact h.order
  · intro hnreturned
    exact absurd hreturned hnreturned
  · intro _
    refine ⟨hclosed', ?_⟩
    unfold Served
    rw [hdrops, hinvoked, hbefore, hrequests]
    exact pending_or_served hclosed hqueue heq

theorem Invariant.callHandler (h : Invariant actions s)
    (hrun : (Machine.run step {} actions).2 = .ok s) {next : AsyncReceiveFromParameters H}
    {error : Error} {recBytes : ℕ} (hthread : s.waitThread = .handling next error recBytes)
    (hstep : step s .callHandler =
      .ok ({ s with waitThread := .waiting }, some ⟨next.readHandler, error, recBytes⟩)) :
    Invariant (actions ++ [.callHandler]) { s with waitThread := .waiting } := by
  have hrequests : requests (actions ++ [.callHandler]) = requests actions :=
    requests_concat_of_none rfl
  have hinvoked : invoked (actions ++ [.callHandler]) = invoked actions ++ [next.readHandler] :=
    invoked_concat hrun hstep
  obtain ⟨hnot, heq⟩ := h.running (by simp [hthread])
  have hhand : s.inHand = [next] := by rw [inHand, hthread]
  rw [hhand, List.map_append, List.map_singleton, ← List.append_assoc] at heq
  refine ⟨?_, ?_, ?_, ?_⟩
  · rw [h.isClosed, List.mem_append]
    simp
  · -- what has been answered now is a prefix of the requests
    rw [hrequests, hinvoked]
    have hprefix : invoked actions ++ [next.readHandler] <+: (requests actions).map some :=
      ⟨_, heq.symm⟩
    rw [List.prefix_map_iff] at hprefix
    exact hprefix
  · intro _
    rw [drops_concat hrun, hrequests, hinvoked]
    refine ⟨?_, heq⟩
    rintro (hdrops | ⟨hcall, -⟩)
    · exact hnot hdrops
    · cases hcall
  · intro hreturned
    cases hreturned

theorem Invariant.step {o : Option (Invocation H)} (h : Invariant actions s)
    (hrun : (Machine.run step {} actions).2 = .ok s) (hstep : step s a = .ok (s', o)) :
    Invariant (actions ++ [a]) s' := by
  cases a with
  | asyncReceiveFrom readHandler =>
    cases hstep
    exact h.asyncReceiveFrom hrun readHandler
  | close =>
    cases hstep
    exact h.of_same hrun rfl rfl (by simp) (by simp) Iff.rfl fun _ => rfl
  | takeRequest =>
    obtain ⟨hwaiting, rfl, hsame,
      ⟨hclosed, hqueue, hreturned⟩ | ⟨hnot, next, hreceiving, hqueue⟩⟩ :=
      step_takeRequest_eq_ok hstep
    · exact h.returns hrun hwaiting hstep hclosed (hsame ▸ hclosed) hqueue hreturned
    · refine h.of_same hrun hstep rfl (by simp [hsame]) ?_
        (by simp [hwaiting, hreceiving]) fun _ => ?_
      · rintro ⟨-, hlast⟩
        exact hnot ⟨hlast.1, hlast.2.1⟩
      · rw [inHand, inHand, hreceiving, hwaiting, ← hqueue]
        rfl
  | receiveDatagram udpcapError recBytes =>
    obtain ⟨next, hreceiving, rfl, rfl⟩ := step_receiveDatagram_eq_ok hstep
    refine h.of_same hrun hstep rfl (by simp) (by simp) (by simp [hreceiving]) fun _ => ?_
    rw [inHand, inHand, hreceiving]
  | callHandler =>
    obtain ⟨next, error, recBytes, hhandling, rfl, rfl⟩ := step_callHandler_eq_ok hstep
    exact h.callHandler hrun hhandling hstep

theorem invariant_of_run (h : (Machine.run step {} actions).2 = .ok s) : Invariant actions s := by
  induction actions using List.reverseRecOn generalizing s with
  | nil =>
    cases h
    exact invariant_nil
  | append_singleton actions a ih =>
    obtain ⟨s₁, o, hrun, hstep⟩ := Machine.exists_step_of_run_concat h
    exact (ih hrun).step hrun hstep

/-- Order: whatever the interleaving, the handlers called are those of the first requests, in their
order; the empty handler is never called. -/
theorem invoked_in_order (h : (Machine.run step {} actions).2 = .ok s) :
    ∃ answered, answered <+: requests actions ∧ invoked actions = answered.map some :=
  (invariant_of_run h).order

/-- No request is lost. When the thread has returned, every request made before `close` has been
answered, exactly if none of them was taken out as the last one of the closed socket. -/
theorem served_iff (h : (Machine.run step {} actions).2 = .ok s)
    (hreturned : s.waitThread = .returned) : Served actions ↔ ¬ Drops actions := by
  obtain ⟨-, ⟨hdrops, hlength⟩ | ⟨hnot, hserved⟩⟩ := (invariant_of_run h).returned hreturned
  · refine iff_of_false ?_ (not_not.mpr hdrops)
    rintro ⟨late, -, heq⟩
    have := congrArg List.length heq
    rw [List.length_map, List.length_append] at this
    omega
  · exact iff_of_true hserved hnot

theorem served_before_close :
    Served ([.asyncReceiveFrom 7, .takeRequest, .receiveDatagram ⟨.ok, "OK", "OK"⟩ 24, .callHandler,
      .close, .takeRequest] : List (Action ℕ)) := by
  refine (served_iff rfl rfl).mpr ?_
  rintro ⟨before, after, s, heq, hrun, hclosed, hlength, -⟩
  rcases before with _ | ⟨_, _ | ⟨_, _ | ⟨_, _ | ⟨_, _ | ⟨_, _ | ⟨_, before⟩⟩⟩⟩⟩⟩ <;>
    simp only [List.cons_append, List.nil_append, List.cons.injEq, reduceCtorEq, false_and,
      and_false, true_and] at heq
  · -- the request is taken out before the socket is closed
    obtain ⟨rfl, -⟩ := heq
    cases hrun
    cases hclosed
  · -- nothing is left in the queue
    obtain ⟨rfl, rfl, rfl, rfl, rfl, -⟩ := heq
    cases hrun
    cases hlength
  · simp at heq

/-- A request that is pending when the socket is closed is not answered. -/
theorem pending_request_dropped :
    ∃ s, (Machine.run step ({} : AsyncUdpcapSocket ℕ)
          [.asyncReceiveFrom 7, .close, .takeRequest]).2 = .ok s ∧
        s.waitThread = .returned ∧
        ¬ Served ([.asyncReceiveFrom 7, .close, .takeRequest] : List (Action ℕ)) := by
  refine ⟨_, rfl, rfl, ?_⟩
  rintro ⟨late, -, heq⟩
  cases heq

end AsyncUdpcapSocket

end Ecaludp
