import Ecaludp.AsyncUdpcapSocket.Requests

/-!
# Mutex and condition variable

`AsyncUdpcapSocket` takes a critical section as one action and lets the condition variable wake the
wait thread up exactly when it has something to do. Here every thread takes the steps that it takes
in the source: the mutex is acquired and released, `isClosed` is read apart from the queue and set
without the mutex, `notify_one` wakes up a thread that is blocked and nothing else does, but for
spurious wake-ups.

The coarser machine is right about all that: every run is one of its runs, with the same calls of
handlers (`threads_refine`).
-/

namespace Ecaludp

namespace AsyncUdpcapSocket

variable {H : Type}

/-- Where a thread is in `asyncReceiveFrom` or `close`. -/
inductive Caller (H : Type) where
  /-- in front of the mutex: `asyncReceiveFrom` with its handler, or `close` -/
  | locking (readHandler : Option H)
  /-- in front of `push_back`, with the mutex -/
  | pushing (readHandler : H)
  /-- in front of `notify_one`, with the mutex -/
  | notifying
  /-- in front of the release of the mutex -/
  | unlocking
  | returned

/-- Where the wait thread is in `waitForData`. -/
inductive WaitPoint (H : Type) where
  /-- in front of the mutex, for the first time or after a wake-up -/
  | locking
  /-- in front of `isClosed` in the predicate, with the mutex -/
  | checkingClosed
  /-- in front of the queue in the predicate: the socket was not closed -/
  | checkingQueue
  /-- blocked by the condition variable -/
  | blocked
  /-- the predicate was true -/
  | taking
  /-- in front of the test for the end, with the mutex and the request that was in front, if there
  was one -/
  | leaving (front : Option (AsyncReceiveFromParameters H))
  | receiving (next : AsyncReceiveFromParameters H)
  | handling (next : AsyncReceiveFromParameters H) (error : Error) (recBytes : ℕ)
  | returned

/-- The socket, its mutex and its threads. -/
structure Threads (H : Type) where
  isClosed : Bool := false
  asyncReceiveFromParametersQueue : List (AsyncReceiveFromParameters H) := []
  waitThreadTriggerMutex : Bool := false
  waitThread : WaitPoint H := .locking
  callers : List (Caller H) := []

namespace Threads

/-- What happens next: a call begins, one of the threads goes on, or the wait thread wakes up for no
reason. -/
inductive Action (H : Type) where
  | asyncReceiveFrom (readHandler : H)
  /-- `udpcap_socket_.close()` has been called -/
  | close
  | caller (i : ℕ)
  | waitForData
  | wakeUp
  | receiveDatagram (udpcapError : UdpcapError) (recBytes : ℕ)
  | callHandler

/-- A step of a caller. -/
def callerStep (s : Threads H) : Caller H → Except Disabled (Threads H × Caller H)
  | .locking readHandler =>
    if s.waitThreadTriggerMutex then .error .disabled
    else .ok ({ s with waitThreadTriggerMutex := true }, match readHandler with
      | some readHandler => .pushing readHandler
      | none => .notifying)
  | .pushing readHandler =>
    .ok ({ s with asyncReceiveFromParametersQueue :=
      s.asyncReceiveFromParametersQueue ++ [⟨some readHandler⟩] }, .notifying)
  | .notifying =>
    .ok ({ s with waitThread := match s.waitThread with
      | .blocked => .locking
      | waitThread => waitThread }, .unlocking)
  | .unlocking => .ok ({ s with waitThreadTriggerMutex := false }, .returned)
  | .returned => .error .disabled

/-- A step of the wait thread up to the next call of Udpcap. -/
def waitStep (s : Threads H) : Except Disabled (Threads H) :=
  match s.waitThread with
  | .locking =>
    if s.waitThreadTriggerMutex then .error .disabled
    else .ok { s with waitThreadTriggerMutex := true, waitThread := .checkingClosed }
  | .checkingClosed => .ok { s with waitThread := if s.isClosed then .taking else .checkingQueue }
  | .checkingQueue =>
    if s.asyncReceiveFromParametersQueue.isEmpty then
      .ok { s with waitThreadTriggerMutex := false, waitThread := .blocked }
    else .ok { s with waitThread := .taking }
  | .taking =>
    match s.asyncReceiveFromParametersQueue with
    | front :: queue =>
      .ok { s with asyncReceiveFromParametersQueue := queue, waitThread := .leaving (some front) }
    | [] => .ok { s with waitThread := .leaving none }
  | .leaving front =>
    if s.asyncReceiveFromParametersQueue.isEmpty && s.isClosed then
      .ok { s with waitThreadTriggerMutex := false, waitThread := .returned }
    else .ok { s with waitThreadTriggerMutex := false, waitThread := .receiving (front.getD {}) }
  | _ => .error .disabled

/-- One action, with the call of a handler that it makes. -/
def step (s : Threads H) : Action H → Except Disabled (Threads H × Option (Invocation H))
  | .asyncReceiveFrom readHandler =>
    .ok ({ s with callers := s.callers ++ [.locking (some readHandler)] }, none)
  | .close => .ok ({ s with isClosed := true, callers := s.callers ++ [.locking none] }, none)
  | .caller i =>
    match s.callers[i]? with
    | some caller =>
      (s.callerStep caller).map fun r => ({ r.1 with callers := s.callers.set i r.2 }, none)
    | none => .error .disabled
  | .waitForData => s.waitStep.map fun s => (s, none)
  | .wakeUp =>
    match s.waitThread with
    | .blocked => .ok ({ s with waitThread := .locking }, none)
    | _ => .error .disabled
  | .receiveDatagram udpcapError recBytes =>
    match s.waitThread with
    | .receiving next =>
      .ok ({ s with waitThread := .handling next (toEcaludpError udpcapError) recBytes }, none)
    | _ => .error .disabled
  | .callHandler =>
    match s.waitThread with
    | .handling next error recBytes =>
      .ok ({ s with waitThread := .locking }, some ⟨next.readHandler, error, recBytes⟩)
    | _ => .error .disabled

/-! ## What a step can do -/

section Steps

variable {s s' : Threads H} {i : ℕ} {o : Option (Invocation H)}

/-- The steps of the wait thread up to the next call of Udpcap. -/
inductive WaitStep (s : Threads H) : Threads H → Prop where
  | lock (hthread : s.waitThread = .locking) (hmutex : s.waitThreadTriggerMutex = false) :
    WaitStep s { s with waitThreadTriggerMutex := true, waitThread := .checkingClosed }
  | isClosed (hthread : s.waitThread = .checkingClosed) (hclosed : s.isClosed = true) :
    WaitStep s { s with waitThread := .taking }
  | isOpen (hthread : s.waitThread = .checkingClosed) (hclosed : s.isClosed = false) :
    WaitStep s { s with waitThread := .checkingQueue }
  | block (hthread : s.waitThread = .checkingQueue)
      (hqueue : s.asyncReceiveFromParametersQueue = []) :
    WaitStep s { s with waitThreadTriggerMutex := false, waitThread := .blocked }
  | goOn (hthread : s.waitThread = .checkingQueue)
      (hqueue : s.asyncReceiveFromParametersQueue ≠ []) :
    WaitStep s { s with waitThread := .taking }
  | takeFront {front : AsyncReceiveFromParameters H} {queue : List (AsyncReceiveFromParameters H)}
    (hthread : s.waitThread = .taking)
    (hqueue : s.asyncReceiveFromParametersQueue = front :: queue) :
    WaitStep s
      { s with asyncReceiveFromParametersQueue := queue, waitThread := .leaving (some front) }
  | takeNothing (hthread : s.waitThread = .taking)
      (hqueue : s.asyncReceiveFromParametersQueue = []) :
    WaitStep s { s with waitThread := .leaving none }
  | leave {front : Option (AsyncReceiveFromParameters H)} (hthread : s.waitThread = .leaving front)
    (hdone : (s.asyncReceiveFromParametersQueue.isEmpty && s.isClosed) = true) :
    WaitStep s { s with waitThreadTriggerMutex := false, waitThread := .returned }
  | receive {front : Option (AsyncReceiveFromParameters H)}
      (hthread : s.waitThread = .leaving front)
    (hdone : (s.asyncReceiveFromParametersQueue.isEmpty && s.isClosed) = false) :
    WaitStep s { s with waitThreadTriggerMutex := false, waitThread := .receiving (front.getD {}) }

theorem waitStep_cases (hstep : s.waitStep = .ok s') : WaitStep s s' := by
  unfold Threads.waitStep at hstep
  cases hthread : s.waitThread with
  | locking =>
    rw [hthread] at hstep
    simp only at hstep
    split_ifs at hstep with hmutex
    cases hstep
    exact .lock hthread (Bool.not_eq_true _ ▸ hmutex)
  | checkingClosed =>
    rw [hthread] at hstep
    cases hstep
    by_cases hclosed : s.isClosed = true
    · rw [if_pos hclosed]
      exact .isClosed hthread hclosed
    · rw [if_neg hclosed]
      exact .isOpen hthread (Bool.not_eq_true _ ▸ hclosed)
  | checkingQueue =>
    rw [hthread] at hstep
    simp only at hstep
    split_ifs at hstep with hempty <;> cases hstep <;> rw [List.isEmpty_iff] at hempty
    · exact .block hthread hempty
    · exact .goOn hthread hempty
  | taking =>
    rw [hthread] at hstep
    simp only at hstep
    cases hqueue : s.asyncReceiveFromParametersQueue <;> simp only [hqueue] at hstep <;> cases hstep
    · exact hqueue ▸ .takeNothing hthread hqueue
    · exact .takeFront hthread hqueue
  | leaving front =>
    rw [hthread] at hstep
    simp only at hstep
    split_ifs at hstep with hdone <;> cases hstep
    · exact .leave hthread hdone
    · exact .receive hthread (Bool.not_eq_true _ ▸ hdone)
  | blocked | receiving | handling | returned =>
    rw [hthread] at hstep
    cases hstep

theorem step_caller_eq_ok (hstep : s.step (.caller i) = .ok (s', o)) :
    ∃ caller s₁ caller', s.callers[i]? = some caller ∧ s.callerStep caller = .ok (s₁, caller') ∧
      s' = { s₁ with callers := s.callers.set i caller' } ∧ o = none := by
  simp only [Threads.step] at hstep
  cases hi : s.callers[i]? with
  | none =>
    rw [hi] at hstep
    cases hstep
  | some caller =>
    rw [hi] at hstep
    obtain ⟨⟨s₁, caller'⟩, hcaller, heq⟩ := Machine.map_eq_ok.mp hstep
    cases heq
    exact ⟨caller, s₁, caller', rfl, hcaller, rfl, rfl⟩

theorem step_waitForData_eq_ok (hstep : s.step .waitForData = .ok (s', o)) :
    WaitStep s s' ∧ o = none := by
  obtain ⟨s₁, hwait, heq⟩ := Machine.map_eq_ok.mp hstep
  cases heq
  exact ⟨waitStep_cases hwait, rfl⟩

theorem step_wakeUp_eq_ok (hstep : s.step .wakeUp = .ok (s', o)) :
    s.waitThread = .blocked ∧ s' = { s with waitThread := .locking } ∧ o = none := by
  cases hthread : s.waitThread <;> simp only [Threads.step, hthread] at hstep <;> cases hstep
  exact ⟨rfl, rfl, rfl⟩

theorem step_receiveDatagram_eq_ok {udpcapError : UdpcapError} {recBytes : ℕ}
    (hstep : s.step (.receiveDatagram udpcapError recBytes) = .ok (s', o)) :
    ∃ next, s.waitThread = .receiving next ∧
      s' = { s with waitThread := .handling next (toEcaludpError udpcapError) recBytes } ∧
      o = none := by
  cases hthread : s.waitThread <;> simp only [Threads.step, hthread] at hstep <;> cases hstep
  exact ⟨_, rfl, rfl, rfl⟩

theorem step_callHandler_eq_ok (hstep : s.step .callHandler = .ok (s', o)) :
    ∃ next error recBytes, s.waitThread = .handling next error recBytes ∧
      s' = { s with waitThread := .locking } ∧ o = some ⟨next.readHandler, error, recBytes⟩ := by
  cases hthread : s.waitThread <;> simp only [Threads.step, hthread] at hstep <;> cases hstep
  exact ⟨_, _, _, rfl, rfl, rfl⟩

end Steps

end Threads

/-! ## The invariant -/

def Caller.ownsMutex : Caller H → Bool
  | .pushing _ => true
  | .notifying => true
  | .unlocking => true
  | _ => false

def WaitPoint.ownsMutex : WaitPoint H → Bool
  | .checkingClosed => true
  | .checkingQueue => true
  | .taking => true
  | .leaving _ => true
  | _ => false

/-- The caller is going to call `notify_one`, with nothing more to put into the queue. -/
def Caller.Wakes (caller : Caller H) : Prop := caller = .locking none ∨ caller = .notifying

/-- The handler that the caller is going to put into the queue. -/
def Caller.pending : Caller H → Option H
  | .locking readHandler => readHandler
  | .pushing readHandler => some readHandler
  | _ => none

section Callers

variable {callers : List (Caller H)} {i : ℕ} {caller caller' c : Caller H}

theorem cons_set_perm (hi : callers[i]? = some caller) (caller' : Caller H) :
    (caller :: callers.set i caller').Perm (caller' :: callers) := by
  have hperm := callers.getD_set_perm_cons i caller'
  rw [hi] at hperm
  exact hperm

theorem mem_set_of_ne (hi : callers[i]? = some caller) (hc : c ∈ callers) (hne : c ≠ caller) :
    c ∈ callers.set i caller' := by
  have hmem : c ∈ caller :: callers.set i caller' :=
    (cons_set_perm hi caller').mem_iff.mpr (List.mem_cons_of_mem _ hc)
  exact (List.mem_cons.mp hmem).resolve_left hne

theorem countP_ownsMutex_set (hi : callers[i]? = some caller) (caller' : Caller H) :
    (callers.set i caller').countP Caller.ownsMutex + caller.ownsMutex.toNat =
      callers.countP Caller.ownsMutex + caller'.ownsMutex.toNat := by
  have hcount := (cons_set_perm hi caller').countP_eq Caller.ownsMutex
  rw [List.countP_cons, List.countP_cons] at hcount
  cases howns : caller.ownsMutex <;> cases howns' : caller'.ownsMutex <;>
    rw [howns, howns'] at hcount <;>
    exact hcount

end Callers

namespace Threads

variable {s s' s₁ : Threads H} {caller caller' : Caller H} {i : ℕ} {a : Action H}
    {o : Option (Invocation H)}

/-- The mutex has one owner at most. The wait thread got past the predicate for a reason, and is
blocked, or about to be, only if nothing is to be done or somebody is going to wake it up. -/
structure WellFormed (s : Threads H) : Prop where
  owner : s.waitThread.ownsMutex.toNat + s.callers.countP Caller.ownsMutex =
    s.waitThreadTriggerMutex.toNat
  taking : s.waitThread = .taking → s.isClosed = true ∨ s.asyncReceiveFromParametersQueue ≠ []
  leaving : s.waitThread = .leaving none →
    s.isClosed = true ∧ s.asyncReceiveFromParametersQueue = []
  closed : s.waitThread = .checkingQueue ∨ s.waitThread = .blocked → s.isClosed = true →
    ∃ caller ∈ s.callers, caller.Wakes
  queue : s.waitThread = .blocked → s.asyncReceiveFromParametersQueue ≠ [] → .notifying ∈ s.callers

theorem wellFormed_init : ({} : Threads H).WellFormed where
  owner := rfl
  taking h := by cases h
  leaving h := by cases h
  closed h := by rcases h with h | h <;> cases h
  queue h := by cases h

/-- The wait thread does not own the mutex that a caller owns. -/
theorem WellFormed.of_ownsMutex (h : s.WellFormed) (hi : s.callers[i]? = some caller)
    (howns : caller.ownsMutex = true) :
    s.waitThread.ownsMutex = false ∧ s.waitThreadTriggerMutex = true := by
  have howner := h.owner
  have hpos : 0 < s.callers.countP Caller.ownsMutex :=
    List.countP_pos_iff.mpr ⟨caller, List.mem_of_getElem? hi, howns⟩
  have hle : s.waitThreadTriggerMutex.toNat ≤ 1 := Bool.toNat_le _
  rw [← Bool.toNat_eq_zero, ← Bool.toNat_eq_one]
  omega

theorem WellFormed.exists_front (h : s.WellFormed) {front : Option (AsyncReceiveFromParameters H)}
    (hthread : s.waitThread = .leaving front)
    (hdone : (s.asyncReceiveFromParametersQueue.isEmpty && s.isClosed) = false) :
    ∃ request, front = some request := by
  cases front with
  | none =>
    obtain ⟨hclosed, hqueue⟩ := h.leaving hthread
    rw [hqueue, hclosed] at hdone
    cases hdone
  | some request => exact ⟨request, rfl⟩

/-- Without the mutex the wait thread has nothing to keep but that it is woken up. -/
theorem wellFormed_of_free (hthread : s.waitThread.ownsMutex = false)
    (howner : s.callers.countP Caller.ownsMutex = s.waitThreadTriggerMutex.toNat)
    (hblocked : s.waitThread = .blocked → (s.isClosed = true → ∃ caller ∈ s.callers, caller.Wakes) ∧
      (s.asyncReceiveFromParametersQueue ≠ [] → .notifying ∈ s.callers)) : s.WellFormed where
  owner := by rw [hthread, Bool.toNat_false, Nat.zero_add, howner]
  taking heq := by
    rw [heq] at hthread
    cases hthread
  leaving heq := by
    rw [heq] at hthread
    cases hthread
  closed heq := by
    rcases heq with heq | heq
    · rw [heq] at hthread
      cases hthread
    · exact (hblocked heq).1
  queue heq := (hblocked heq).2

theorem WellFormed.set (h : s.WellFormed) (hi : s.callers[i]? = some caller) {mutex : Bool}
    (hmutex : caller'.ownsMutex.toNat + s.waitThreadTriggerMutex.toNat =
      caller.ownsMutex.toNat + mutex.toNat)
    (hwakes : caller.Wakes → caller'.Wakes) (hne : .notifying ≠ caller) :
    WellFormed { s with waitThreadTriggerMutex := mutex, callers := s.callers.set i caller' } where
  owner := by
    have howner := h.owner
    have hcount := countP_ownsMutex_set hi caller'
    simp only
    omega
  taking := h.taking
  leaving := h.leaving
  closed hthread hclosed := by
    obtain ⟨c, hc, hcw⟩ := h.closed hthread hclosed
    by_cases heq : c = caller
    · exact ⟨caller', List.mem_set (List.getElem?_eq_some_iff.mp hi).1 _, hwakes (heq ▸ hcw)⟩
    · exact ⟨c, mem_set_of_ne hi hc heq, hcw⟩
  queue hthread hqueue := mem_set_of_ne hi (h.queue hthread hqueue) hne

/-- A step of a caller with the mutex, which leaves the wait thread where it can be. -/
theorem WellFormed.critical (h : s.WellFormed) (hi : s.callers[i]? = some caller)
    (howns : caller.ownsMutex = true) (howns' : caller'.ownsMutex = true)
    {queue : List (AsyncReceiveFromParameters H)} {waitThread : WaitPoint H}
    (hthread : waitThread.ownsMutex = false)
    (hblocked : waitThread = .blocked → caller' = .notifying) :
    WellFormed { s with
      asyncReceiveFromParametersQueue := queue, waitThread := waitThread
      callers := s.callers.set i caller' } := by
  have hmem : caller' ∈ s.callers.set i caller' :=
    List.mem_set (List.getElem?_eq_some_iff.mp hi).1 _
  refine wellFormed_of_free hthread ?_ fun heq => ?_
  · have howner := h.owner
    have hcount := countP_ownsMutex_set hi caller'
    rw [(h.of_ownsMutex hi howns).1, Bool.toNat_false] at howner
    rw [howns, howns'] at hcount
    simp only
    omega
  · rw [hblocked heq] at hmem ⊢
    exact ⟨fun _ => ⟨_, hmem, Or.inr rfl⟩, fun _ => hmem⟩

theorem WellFormed.callerStep (h : s.WellFormed) (hi : s.callers[i]? = some caller)
    (hstep : s.callerStep caller = .ok (s₁, caller')) :
    WellFormed { s₁ with callers := s.callers.set i caller' } := by
  cases caller with
  | locking readHandler =>
    unfold Threads.callerStep at hstep
    split_ifs at hstep with hmutex
    rw [Bool.not_eq_true] at hmutex
    cases readHandler with
    | some readHandler =>
      cases hstep
      exact h.set hi (by rw [hmutex]; rfl) (by rintro (heq | heq) <;> cases heq) nofun
    | none =>
      cases hstep
      exact h.set hi (by rw [hmutex]; rfl) (fun _ => Or.inr rfl) nofun
  | pushing readHandler =>
    obtain ⟨hthread, -⟩ := h.of_ownsMutex hi rfl
    cases hstep
    exact h.critical hi rfl rfl hthread fun _ => rfl
  | notifying =>
    obtain ⟨hthread, -⟩ := h.of_ownsMutex hi rfl
    cases hstep
    refine h.critical hi rfl rfl ?_ ?_
    · cases hw : s.waitThread <;> rw [hw] at hthread <;> first | rfl | exact hthread
    · cases s.waitThread <;> nofun
  | unlocking =>
    obtain ⟨-, hmutex⟩ := h.of_ownsMutex hi rfl
    cases hstep
    exact h.set hi (by rw [hmutex]; rfl) (by rintro (heq | heq) <;> cases heq) nofun
  | returned => cases hstep

theorem WellFormed.waitStep (h : s.WellFormed) (hstep : WaitStep s s') : s'.WellFormed := by
  have howner := h.owner
  have hle : s.waitThreadTriggerMutex.toNat ≤ 1 := Bool.toNat_le _
  cases hstep with
  | lock hthread hmutex =>
    have hcount : 1 + s.callers.countP Caller.ownsMutex = 1 := by
      rw [hthread, hmutex] at howner
      change 0 + _ = 0 at howner
      omega
    exact ⟨hcount, nofun, nofun, nofun, nofun⟩
  | isClosed hthread hclosed =>
    rw [hthread] at howner
    exact ⟨howner, fun _ => Or.inl hclosed, nofun, nofun, nofun⟩
  | isOpen hthread hclosed =>
    rw [hthread] at howner
    exact ⟨howner, nofun, nofun, fun _ heq => absurd (hclosed.symm.trans heq) nofun, nofun⟩
  | block hthread hqueue =>
    -- nobody can put anything into the queue before the thread is blocked
    have hcount : 0 + s.callers.countP Caller.ownsMutex = 0 := by
      rw [hthread] at howner
      change 1 + _ = _ at howner
      omega
    exact ⟨hcount, nofun, nofun, fun _ => h.closed (Or.inl hthread), fun _ hne => absurd hqueue hne⟩
  | goOn hthread hqueue =>
    rw [hthread] at howner
    exact ⟨howner, fun _ => Or.inr hqueue, nofun, nofun, nofun⟩
  | takeFront hthread hqueue =>
    rw [hthread] at howner
    exact ⟨howner, nofun, nofun, nofun, nofun⟩
  | takeNothing hthread hqueue =>
    rw [hthread] at howner
    have hclosed : s.isClosed = true := (h.taking hthread).resolve_right fun hne => hne hqueue
    exact ⟨howner, nofun, fun _ => ⟨hclosed, hqueue⟩, nofun, nofun⟩
  | leave hthread hdone | receive hthread hdone =>
    have hcount : 0 + s.callers.countP Caller.ownsMutex = 0 := by
      rw [hthread] at howner
      change 1 + _ = _ at howner
      omega
    exact ⟨hcount, nofun, nofun, nofun, nofun⟩

theorem WellFormed.goOn (h : s.WellFormed) {waitThread : WaitPoint H}
    (howns : s.waitThread.ownsMutex = false) (howns' : waitThread.ownsMutex = false)
    (hne : waitThread ≠ .blocked) :
    WellFormed { s with waitThread := waitThread } := by
  refine wellFormed_of_free howns' ?_ fun heq => absurd heq hne
  have howner := h.owner
  rw [howns, Bool.toNat_false, Nat.zero_add] at howner
  exact howner

theorem WellFormed.step (h : s.WellFormed) (hstep : s.step a = .ok (s', o)) : s'.WellFormed := by
  cases a with
  | asyncReceiveFrom readHandler =>
    cases hstep
    exact { owner := by
              rw [List.countP_append]
              exact h.owner
            taking := h.taking
            leaving := h.leaving
            closed := fun hthread hclosed => by
              obtain ⟨caller, hmem, hwakes⟩ := h.closed hthread hclosed
              exact ⟨caller, List.mem_append_left _ hmem, hwakes⟩
            queue := fun hthread hqueue => List.mem_append_left _ (h.queue hthread hqueue) }
  | close =>
    cases hstep
    exact { owner := by
              rw [List.countP_append]
              exact h.owner
            taking := fun _ => Or.inl rfl
            leaving := fun hthread => ⟨rfl, (h.leaving hthread).2⟩
            closed := fun _ _ =>
              ⟨.locking none, List.mem_append_right _ List.mem_cons_self, Or.inl rfl⟩
            queue := fun hthread hqueue => List.mem_append_left _ (h.queue hthread hqueue) }
  | caller i =>
    obtain ⟨caller, s₁, caller', hi, hcaller, rfl, -⟩ := step_caller_eq_ok hstep
    exact h.callerStep hi hcaller
  | waitForData => exact h.waitStep (step_waitForData_eq_ok hstep).1
  | wakeUp =>
    obtain ⟨hthread, rfl, -⟩ := step_wakeUp_eq_ok hstep
    exact h.goOn (by rw [hthread]; rfl) rfl nofun
  | receiveDatagram udpcapError recBytes =>
    obtain ⟨next, hthread, rfl, -⟩ := step_receiveDatagram_eq_ok hstep
    exact h.goOn (by rw [hthread]; rfl) rfl nofun
  | callHandler =>
    obtain ⟨next, error, recBytes, hthread, rfl, -⟩ := step_callHandler_eq_ok hstep
    exact h.goOn (by rw [hthread]; rfl) rfl nofun

theorem WellFormed.run {actions : List (Action H)}
    (hrun : (Machine.run Threads.step {} actions).2 = .ok s) :
    s.WellFormed :=
  Machine.invariant_of_run (fun _ _ _ _ h hstep => h.step hstep) wellFormed_init hrun

/-! ## The coarser machine -/

/-- The state in which every critical section that has not been left has not begun, but for what has
been put into the queue. -/
def toAsyncUdpcapSocket (s : Threads H) : AsyncUdpcapSocket H where
  isClosed := s.isClosed
  asyncReceiveFromParametersQueue :=
    match s.waitThread with
    | .leaving front => front.toList ++ s.asyncReceiveFromParametersQueue
    | _ => s.asyncReceiveFromParametersQueue
  waitThread :=
    match s.waitThread with
    | .receiving next => .receiving next
    | .handling next error recBytes => .handling next error recBytes
    | .returned => .returned
    | _ => .waiting

/-- The handlers that have been given to `asyncReceiveFrom` and are not in the queue yet. -/
def pending (s : Threads H) : List H := s.callers.filterMap Caller.pending

def Action.request : Action H → Option H
  | .asyncReceiveFrom readHandler => some readHandler
  | _ => none

/-- The handlers given to `asyncReceiveFrom` in a run, in order. -/
def requests (actions : List (Action H)) : List H := actions.filterMap Action.request

/-- For the coarser machine a step of the threads is a run with the same call of a handler, and its
requests are no longer pending. -/
def Refines (s : Threads H) (o : Option (Invocation H)) (s' : Threads H) (request : Option H) :
    Prop :=
  ∃ actions, (Machine.run AsyncUdpcapSocket.step s.toAsyncUdpcapSocket actions).2 =
    .ok s'.toAsyncUdpcapSocket ∧
    (Machine.run AsyncUdpcapSocket.step s.toAsyncUdpcapSocket actions).1.reduceOption = o.toList ∧
    (AsyncUdpcapSocket.requests actions ++ s'.pending).Perm (request.toList ++ s.pending)

theorem refines_of_perm {request : Option H}
    (hsocket : s'.toAsyncUdpcapSocket = s.toAsyncUdpcapSocket)
    (hpending : s'.pending.Perm (request.toList ++ s.pending)) : s.Refines none s' request :=
  ⟨[], congrArg Except.ok hsocket.symm, rfl, hpending⟩

theorem refines_of_step {request : Option H} (action : AsyncUdpcapSocket.Action H)
    (hstep : AsyncUdpcapSocket.step s.toAsyncUdpcapSocket action = .ok (s'.toAsyncUdpcapSocket, o))
    (hpending : (action.request.toList ++ s'.pending).Perm (request.toList ++ s.pending)) :
    s.Refines o s' request := by
  refine ⟨[action], ?_, ?_, ?_⟩
  · rw [Machine.run_cons_ok hstep, Machine.run_nil]
  · rw [Machine.run_cons_ok hstep, Machine.run_nil]
    cases o <;> rfl
  · have hrequests : AsyncUdpcapSocket.requests [action] = action.request.toList := by
      rw [← List.nil_append [action], requests_concat]
      rfl
    rw [hrequests]
    exact hpending

/-- A step of a caller is an action when the request gets into the queue. -/
theorem callerStep_refines (hi : s.callers[i]? = some caller)
    (hstep : s.callerStep caller = .ok (s₁, caller')) :
    s.Refines none { s₁ with callers := s.callers.set i caller' } none := by
  have hpending := (cons_set_perm hi caller').filterMap Caller.pending
  cases caller with
  | locking readHandler =>
    unfold Threads.callerStep at hstep
    split_ifs at hstep
    cases readHandler with
    | some readHandler =>
      cases hstep
      exact refines_of_perm rfl ((List.perm_cons _).mp hpending)
    | none =>
      cases hstep
      exact refines_of_perm rfl hpending
  | pushing readHandler =>
    cases hstep
    refine refines_of_step (.asyncReceiveFrom readHandler) ?_ ?_
    · cases hthread : s.waitThread <;> simp [toAsyncUdpcapSocket, AsyncUdpcapSocket.step, hthread]
    · exact hpending
  | notifying =>
    cases hstep
    refine refines_of_perm ?_ hpending
    cases hthread : s.waitThread <;> simp [toAsyncUdpcapSocket, hthread]
  | unlocking =>
    cases hstep
    exact refines_of_perm rfl hpending
  | returned => cases hstep

/-- A step of the wait thread is an action when the critical section is left. -/
theorem waitStep_refines (h : s.WellFormed) (hstep : WaitStep s s') : s.Refines none s' none := by
  cases hstep with
  | lock hthread | isClosed hthread | isOpen hthread | block hthread | goOn hthread
  | takeNothing hthread =>
    exact refines_of_perm (by simp [toAsyncUdpcapSocket, hthread]) (.refl _)
  | takeFront hthread hqueue =>
    exact refines_of_perm (by simp [toAsyncUdpcapSocket, hthread, hqueue]) (.refl _)
  | @leave front hthread hdone =>
    refine refines_of_step .takeRequest ?_ (.refl _)
    cases front with
    | none =>
      obtain ⟨hclosed, hqueue⟩ := h.leaving hthread
      simp [toAsyncUdpcapSocket, AsyncUdpcapSocket.step, takeRequest, hthread, hqueue,
        hclosed, Except.map]
    | some front =>
      simp only [toAsyncUdpcapSocket, AsyncUdpcapSocket.step, takeRequest, hthread,
        Option.toList_some, List.cons_append, List.nil_append, List.isEmpty_cons, Bool.not_false,
        Bool.or_true, if_true, hdone, Except.map]
  | receive hthread hdone =>
    obtain ⟨request, rfl⟩ := h.exists_front hthread hdone
    refine refines_of_step .takeRequest ?_ (.refl _)
    simp only [toAsyncUdpcapSocket, AsyncUdpcapSocket.step, takeRequest, hthread,
      Option.toList_some, List.cons_append, List.nil_append, List.isEmpty_cons, Bool.not_false,
      Bool.or_true, if_true, hdone, Except.map]
    rfl

theorem step_refines (h : s.WellFormed) (hstep : s.step a = .ok (s', o)) :
    s.Refines o s' a.request := by
  cases a with
  | asyncReceiveFrom readHandler =>
    cases hstep
    refine refines_of_perm rfl ?_
    rw [pending, List.filterMap_append]
    exact List.perm_append_comm
  | close =>
    cases hstep
    refine refines_of_step .close rfl (.of_eq ?_)
    rw [pending, List.filterMap_append]
    exact List.append_nil _
  | caller i =>
    obtain ⟨caller, s₁, caller', hi, hcaller, rfl, rfl⟩ := step_caller_eq_ok hstep
    exact callerStep_refines hi hcaller
  | waitForData =>
    obtain ⟨hwait, rfl⟩ := step_waitForData_eq_ok hstep
    exact waitStep_refines h hwait
  | wakeUp =>
    obtain ⟨hthread, rfl, rfl⟩ := step_wakeUp_eq_ok hstep
    exact refines_of_perm (by simp [toAsyncUdpcapSocket, hthread]) (.refl _)
  | receiveDatagram udpcapError recBytes =>
    obtain ⟨next, hthread, rfl, rfl⟩ := step_receiveDatagram_eq_ok hstep
    refine refines_of_step (.receiveDatagram udpcapError recBytes) ?_ (.refl _)
    simp [toAsyncUdpcapSocket, AsyncUdpcapSocket.step, hthread]
  | callHandler =>
    obtain ⟨next, error, recBytes, hthread, rfl, rfl⟩ := step_callHandler_eq_ok hstep
    refine refines_of_step .callHandler ?_ (.refl _)
    simp [toAsyncUdpcapSocket, AsyncUdpcapSocket.step, hthread]

/-- The coarser machine is right. A run of the threads is one of its runs, with the same calls of
handlers and the requests of the calls that have got as far as the queue. -/
theorem threads_refine {actions : List (Action H)}
    (hrun : (Machine.run step {} actions).2 = .ok s) :
    ∃ actions', (Machine.run AsyncUdpcapSocket.step {} actions').2 = .ok s.toAsyncUdpcapSocket ∧
      (Machine.run AsyncUdpcapSocket.step {} actions').1.reduceOption =
        (Machine.run step {} actions).1.reduceOption ∧
      (AsyncUdpcapSocket.requests actions' ++ s.pending).Perm (requests actions) := by
  induction actions using List.reverseRecOn generalizing s with
  | nil =>
    cases hrun
    exact ⟨[], rfl, rfl, .refl _⟩
  | append_singleton actions a ih =>
    obtain ⟨s₁, o, hrun₁, hstep⟩ := Machine.exists_step_of_run_concat hrun
    obtain ⟨before, hbefore, houts, hperm⟩ := ih hrun₁
    obtain ⟨after, hafter, houts', hperm'⟩ := step_refines (WellFormed.run hrun₁) hstep
    refine ⟨before ++ after, ?_, ?_, ?_⟩
    · rw [Machine.run_append _ hbefore]
      exact hafter
    · rw [Machine.run_append _ hbefore, Machine.run_append _ hrun₁, Machine.run_cons_ok hstep,
        List.reduceOption_append, List.reduceOption_append, houts, houts']
      cases o <;> rfl
    · have hcoarse : AsyncUdpcapSocket.requests (before ++ after) =
          AsyncUdpcapSocket.requests before ++ AsyncUdpcapSocket.requests after :=
        List.filterMap_append
      have hfine : requests (actions ++ [a]) = requests actions ++ a.request.toList := by
        unfold requests
        rw [List.filterMap_append]
        cases h : a.request <;> simp [h]
      rw [hcoarse, hfine, List.append_assoc]
      refine (hperm'.append_left _).trans ((List.perm_append_comm.append_left _).trans ?_)
      rw [← List.append_assoc]
      exact hperm.append_right _

/-- The wait thread is blocked, and woken up by the request 7. -/
def wokenUp : List (Action ℕ) :=
  [.waitForData, .waitForData, .waitForData, .asyncReceiveFrom 7, .caller 0, .caller 0,
    .caller 0, .caller 0, .waitForData, .waitForData, .waitForData, .waitForData, .waitForData,
    .receiveDatagram ⟨.ok, "OK", "OK"⟩ 24, .callHandler]

theorem threads_refine_wokenUp :
    ∃ actions',
      (Machine.run AsyncUdpcapSocket.step ({} : AsyncUdpcapSocket ℕ) actions').2 = .ok {} ∧
      (Machine.run AsyncUdpcapSocket.step {} actions').1.reduceOption =
        [⟨some 7, ⟨.ok, "OK"⟩, 24⟩] ∧
      (AsyncUdpcapSocket.requests actions' ++ []).Perm [7] :=
  @threads_refine ℕ { callers := [.returned] } wokenUp rfl

end Threads

end AsyncUdpcapSocket

end Ecaludp
