import Ecaludp.AsyncUdpcapSocket.Threads

/-!
# No wake-up is lost

`notify_one` only wakes up a thread that is blocked already. Still the wait thread is never blocked
for good with a request in the queue or a closed socket: `asyncReceiveFrom` and `close` call it with
the mutex, after what the predicate looks at has changed. So once no call begins any more, the
threads come to rest, and then all calls have returned, and the wait thread has, too, or there is
nothing to do (`comes_to_rest`).
-/

namespace Ecaludp

namespace AsyncUdpcapSocket

variable {H : Type}

/-- A bound on the steps that are left to the caller, to the wait thread for its request and after
its wake-up. -/
def Caller.work : Caller H → ℕ
  | .locking (some _) => 16
  | .locking none => 8
  | .pushing _ => 15
  | .notifying => 7
  | .unlocking => 1
  | .returned => 0

/-- A bound on the steps that are left to the wait thread, apart from those for the queue. -/
def WaitPoint.work : WaitPoint H → ℕ
  | .locking => 5
  | .checkingClosed => 4
  | .checkingQueue => 3
  | .blocked => 0
  | .taking => 2
  | .leaving none => 1
  | .leaving (some _) => 8
  | .receiving _ => 7
  | .handling _ _ _ => 6
  | .returned => 0

namespace Threads

variable {s s' s₁ : Threads H} {caller caller' : Caller H} {i : ℕ} {a : Action H}
    {o : Option (Invocation H)}

/-- A thread goes on: no call begins, and the wait thread does not wake up for no reason. -/
def Action.goesOn : Action H → Bool
  | .caller _ => true
  | .waitForData => true
  | .receiveDatagram _ _ => true
  | .callHandler => true
  | _ => false

/-- No thread can go on. -/
def Stuck (s : Threads H) : Prop := ∀ a : Action H, a.goesOn = true → s.step a = .error .disabled

/-- Nothing is left to do. -/
structure Idle (s : Threads H) : Prop where
  callers : ∀ caller ∈ s.callers, caller = .returned
  waitThread : s.waitThread = .returned ∨
    s.waitThread = .blocked ∧ s.isClosed = false ∧ s.asyncReceiveFromParametersQueue = []

/-- A bound on the steps that are left to the threads: those of a call, of a request that the wait
thread takes out and of the wake-up that a call makes. -/
def work (s : Threads H) : ℕ :=
  s.waitThread.work + 7 * s.asyncReceiveFromParametersQueue.length + (s.callers.map Caller.work).sum

theorem Stuck.caller_cases (h : s.Stuck) (hcaller : caller ∈ s.callers) :
    caller = .returned ∨ caller.ownsMutex = false ∧ s.waitThreadTriggerMutex = true := by
  obtain ⟨i, hi⟩ := List.mem_iff_getElem?.mp hcaller
  have hstep := h (.caller i) rfl
  simp only [Threads.step, hi] at hstep
  cases caller with
  | locking readHandler =>
    refine Or.inr ⟨rfl, ?_⟩
    cases hmutex : s.waitThreadTriggerMutex
    · simp [Threads.callerStep, hmutex, Except.map] at hstep
    · rfl
  | pushing | notifying | unlocking => cases hstep
  | returned => exact Or.inl rfl

theorem Stuck.waitThread_cases (h : s.Stuck) :
    s.waitThread = .locking ∧ s.waitThreadTriggerMutex = true ∨ s.waitThread = .blocked ∨
      s.waitThread = .returned := by
  have hstep := h .waitForData rfl
  cases hthread : s.waitThread with
  | locking =>
    refine Or.inl ⟨rfl, ?_⟩
    cases hmutex : s.waitThreadTriggerMutex
    · simp [Threads.step, Threads.waitStep, hthread, hmutex, Except.map] at hstep
    · rfl
  | checkingClosed => simp [Threads.step, Threads.waitStep, hthread, Except.map] at hstep
  | checkingQueue =>
    simp only [Threads.step, Threads.waitStep, hthread] at hstep
    split_ifs at hstep <;> cases hstep
  | blocked => exact Or.inr (Or.inl rfl)
  | taking =>
    simp only [Threads.step, Threads.waitStep, hthread] at hstep
    cases hqueue : s.asyncReceiveFromParametersQueue <;> rw [hqueue] at hstep <;> cases hstep
  | leaving front =>
    simp only [Threads.step, Threads.waitStep, hthread] at hstep
    split_ifs at hstep <;> cases hstep
  | receiving next =>
    have hreceive := h (.receiveDatagram ⟨.ok, "", ""⟩ 0) rfl
    simp [Threads.step, hthread] at hreceive
  | handling next error recBytes =>
    have hcall := h .callHandler rfl
    simp [Threads.step, hthread] at hcall
  | returned => exact Or.inr (Or.inr rfl)

/-- Somebody owns a mutex that is not free, and can go on. -/
theorem Stuck.mutex_free (h : s.Stuck) (hwell : s.WellFormed) :
    s.waitThreadTriggerMutex = false := by
  have hcallers : s.callers.countP Caller.ownsMutex = 0 := by
    rw [List.countP_eq_zero]
    intro caller hcaller
    obtain rfl | ⟨hfalse, -⟩ := h.caller_cases hcaller
    · nofun
    · rw [hfalse]
      nofun
  have hthread : s.waitThread.ownsMutex = false := by
    obtain ⟨heq, -⟩ | heq | heq := h.waitThread_cases <;> rw [heq] <;> rfl
  have howner := hwell.owner
  rw [hcallers, hthread] at howner
  cases hmutex : s.waitThreadTriggerMutex
  · rfl
  · rw [hmutex] at howner
    cases howner

/-- No wake-up is lost: when no thread can go on, nothing is left to do. -/
theorem Stuck.idle (h : s.Stuck) (hwell : s.WellFormed) : s.Idle := by
  have hmutex := h.mutex_free hwell
  have hcallers : ∀ caller ∈ s.callers, caller = .returned := by
    intro caller hcaller
    obtain heq | ⟨-, htrue⟩ := h.caller_cases hcaller
    · exact heq
    · rw [hmutex] at htrue
      cases htrue
  refine ⟨hcallers, ?_⟩
  obtain ⟨-, htrue⟩ | hblocked | hreturned := h.waitThread_cases
  · rw [hmutex] at htrue
    cases htrue
  · refine Or.inr ⟨hblocked, ?_, ?_⟩
    · by_contra hclosed
      rw [Bool.not_eq_false] at hclosed
      obtain ⟨caller, hcaller, hwakes⟩ := hwell.closed (Or.inr hblocked) hclosed
      rw [hcallers caller hcaller] at hwakes
      rcases hwakes with heq | heq <;> cases heq
    · by_contra hqueue
      have heq := hcallers _ (hwell.queue hblocked hqueue)
      cases heq
  · exact Or.inl hreturned

theorem work_set (hi : s.callers[i]? = some caller) (caller' : Caller H) :
    caller.work + ((s.callers.set i caller').map Caller.work).sum =
      caller'.work + (s.callers.map Caller.work).sum := by
  have hsum := ((cons_set_perm hi caller').map Caller.work).sum_eq
  rw [List.map_cons, List.map_cons, List.sum_cons, List.sum_cons] at hsum
  exact hsum

theorem callerStep_work (hi : s.callers[i]? = some caller)
    (hstep : s.callerStep caller = .ok (s₁, caller')) :
    work { s₁ with callers := s.callers.set i caller' } < s.work := by
  have hset := work_set hi caller'
  cases caller with
  | locking readHandler =>
    unfold Threads.callerStep at hstep
    split_ifs at hstep
    cases readHandler <;> cases hstep <;> simp only [Caller.work, work] at hset ⊢ <;> omega
  | pushing readHandler =>
    cases hstep
    simp only [Caller.work, work, List.length_append, List.length_singleton] at hset ⊢
    omega
  | notifying =>
    cases hstep
    simp only [Caller.work, work] at hset ⊢
    cases s.waitThread <;> simp only [WaitPoint.work] <;> omega
  | unlocking =>
    cases hstep
    simp only [Caller.work, work] at hset ⊢
    omega
  | returned => cases hstep

theorem waitStep_work (h : s.WellFormed) (hstep : WaitStep s s') : s'.work < s.work := by
  cases hstep with
  | lock hthread | isClosed hthread | isOpen hthread | block hthread | goOn hthread
  | takeNothing hthread =>
    simp only [work, hthread, WaitPoint.work]
    omega
  | takeFront hthread hqueue =>
    simp only [work, hthread, hqueue, WaitPoint.work, List.length_cons]
    omega
  | @leave front hthread =>
    cases front <;> simp only [work, hthread, WaitPoint.work] <;> omega
  | receive hthread hdone =>
    obtain ⟨request, rfl⟩ := h.exists_front hthread hdone
    simp only [work, hthread, WaitPoint.work]
    omega

theorem step_work (h : s.WellFormed) (ha : a.goesOn = true) (hstep : s.step a = .ok (s', o)) :
    s'.work < s.work := by
  cases a with
  | asyncReceiveFrom | close | wakeUp => cases ha
  | caller i =>
    obtain ⟨caller, s₁, caller', hi, hcaller, rfl, -⟩ := step_caller_eq_ok hstep
    exact callerStep_work hi hcaller
  | waitForData => exact waitStep_work h (step_waitForData_eq_ok hstep).1
  | receiveDatagram udpcapError recBytes =>
    obtain ⟨next, hthread, rfl, -⟩ := step_receiveDatagram_eq_ok hstep
    simp only [work, hthread, WaitPoint.work]
    omega
  | callHandler =>
    obtain ⟨next, error, recBytes, hthread, rfl, -⟩ := step_callHandler_eq_ok hstep
    simp only [work, hthread, WaitPoint.work]
    omega

/-- The threads come to rest. When no call begins any more, they take a bounded number of steps, and
when none of them can go on there is nothing left to do. -/
theorem comes_to_rest {actions more : List (Action H)}
    (hrun : (Machine.run step {} actions).2 = .ok s)
    (hmore : ∀ a ∈ more, a.goesOn = true) (hrun' : (Machine.run step s more).2 = .ok s') :
    more.length ≤ s.work ∧ (s'.Stuck → s'.Idle) := by
  have hwell := WellFormed.run hrun
  constructor
  · exact Machine.length_le_of_measure (I := WellFormed) (P := fun a => a.goesOn = true)
      (fun _ _ _ _ h ha hstep => ⟨h.step hstep, step_work h ha hstep⟩) hwell hmore hrun'
  · intro hstuck
    exact hstuck.idle (Machine.invariant_of_run (fun _ _ _ _ h hstep => h.step hstep) hwell hrun')

theorem stuck_blocked : Stuck ({ waitThread := .blocked, callers := [.returned] } : Threads ℕ) := by
  intro a ha
  cases a with
  | asyncReceiveFrom | close | wakeUp => cases ha
  | caller i =>
    cases i with
    | zero => rfl
    | succ i => rfl
  | waitForData | receiveDatagram | callHandler => rfl

theorem comes_to_rest_wokenUp :
    ∃ s s' : Threads ℕ, (Machine.run step {} (wokenUp.take 4)).2 = .ok s ∧
      (Machine.run step s (wokenUp.drop 4 ++ List.replicate 3 .waitForData)).2 = .ok s' ∧
      (wokenUp.drop 4 ++ List.replicate 3 Action.waitForData).length ≤ s.work ∧ s'.Idle := by
  have hrest := @comes_to_rest ℕ { waitThread := .blocked, callers := [.locking (some 7)] }
    { waitThread := .blocked, callers := [.returned] } (wokenUp.take 4)
    (wokenUp.drop 4 ++ List.replicate 3 .waitForData) rfl (by decide) rfl
  exact ⟨_, _, rfl, rfl, hrest.1, hrest.2 stuck_blocked⟩

end Threads

end AsyncUdpcapSocket

end Ecaludp
