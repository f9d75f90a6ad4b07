import Ecaludp.Socket
import Ecaludp.Reassembly.Entry

/-!
# What a socket does to the package map

A datagram that passes the checks of the common header reaches the reassembly; any other one is
rejected whatever the state (`handleReceived_of_passesHeader`,
`handleReceived_of_not_passesHeader`). In terms of entries: every call prunes every entry, then an
info or fragment takes a step on the entry of its key (`Socket.step_of_arrivalOf`).
-/

namespace Ecaludp

open ByteOrder Reassembly EntryMap

variable {E : Type} [LinearOrder E] {settings : SocketSettings} {buffer : RawMemory}

/-! ## The common header -/

/-- The datagram has a common header with the magic of the socket and version 5. -/
def PassesHeader (settings : SocketSettings) (buffer : RawMemory) : Prop :=
  ¬ buffer.size < sizeofHeaderCommon ∧
    CString.strncmp 4 (HeaderCommon.load buffer.data).magic.toList
      settings.magicHeaderBytes.toList = 0 ∧
    (HeaderCommon.load buffer.data).version = 5

instance : Decidable (PassesHeader settings buffer) := inferInstanceAs (Decidable (_ ∧ _ ∧ _))

/-- `if (error) return nullptr`. -/
def dropOnError (result : HandlerResult E) : HandlerResult E :=
  (result.1, if result.2.2.toBool then none else result.2.1, result.2.2)

theorem handleReceived_of_passesHeader (h : PassesHeader settings buffer)
    (reassemblyHandler : ReassemblyHandler E) (pruneNow : TimePoint) (env : Env)
    (senderEndpoint : E) (error : Error) (packages : Reassembly E) :
    handleReceived reassemblyHandler settings pruneNow env buffer senderEndpoint error packages =
      (reassemblyHandler env buffer senderEndpoint error
        (packages.removeOldPackages (pruneNow - settings.maxReassemblyAge))).map dropOnError := by
  obtain ⟨hsize, hmagic, hversion⟩ := h
  unfold handleReceived
  simp only
  rw [if_neg hsize, if_neg (not_not.mpr hmagic), if_pos hversion]
  cases reassemblyHandler env buffer senderEndpoint error
    (packages.removeOldPackages (pruneNow - settings.maxReassemblyAge)) <;> rfl

/-- The error for a datagram that does not pass. -/
def headerError (settings : SocketSettings) (buffer : RawMemory) : Error :=
  if buffer.size < sizeofHeaderCommon then
    ⟨.malformedDatagram, "Datagram too small to contain common header ("
      ++ toString buffer.size ++ " bytes)"⟩
  else if CString.strncmp 4 (HeaderCommon.load buffer.data).magic.toList
    settings.magicHeaderBytes.toList ≠ 0 then
    ⟨.malformedDatagram, "Wrong magic bytes"⟩
  else ⟨.unsupportedProtocolVersion, toString ((HeaderCommon.load buffer.data).version)⟩

theorem handleReceived_of_not_passesHeader (h : ¬ PassesHeader settings buffer)
    (reassemblyHandler : ReassemblyHandler E) (pruneNow : TimePoint) (env : Env)
    (senderEndpoint : E) (error : Error) (packages : Reassembly E) :
    handleReceived reassemblyHandler settings pruneNow env buffer senderEndpoint error packages =
      .ok (packages.removeOldPackages (pruneNow - settings.maxReassemblyAge), none,
        headerError settings buffer) := by
  unfold handleReceived headerError
  simp only
  by_cases hsize : buffer.size < sizeofHeaderCommon
  · rw [if_pos hsize, if_pos hsize]
  · rw [if_neg hsize, if_neg hsize]
    by_cases hmagic :
        CString.strncmp 4 (HeaderCommon.load buffer.data).magic.toList
          settings.magicHeaderBytes.toList = 0
    · have hversion : ¬ (HeaderCommon.load buffer.data).version = 5 :=
        fun hversion => h ⟨hsize, hmagic, hversion⟩
      rw [if_neg (not_not.mpr hmagic), if_neg (not_not.mpr hmagic), if_neg hversion, ite_self]
      rfl
    · rw [if_pos hmagic, if_pos hmagic]

/-! ## Accepted and rejected datagrams -/

/-- The code of a datagram that is not taken. -/
def Rejection (code : ErrorCode) : Prop :=
  code = .malformedDatagram ∨ code = .duplicateDatagram ∨ code = .unsupportedProtocolVersion

instance (code : ErrorCode) : Decidable (Rejection code) := inferInstanceAs (Decidable (_ ∨ _ ∨ _))

namespace Entry

variable {p : FragmentedPackage} {entry entry' : Entry} {now : TimePoint}
    {a : Arrival} {o : Outcome}

theorem finish_not_rejection (h : finish p = .ok (entry, o)) : ¬ Rejection o.errorCode := by
  unfold finish at h
  unfold Rejection
  split_ifs at h <;> cases h <;> simp

/-- A datagram is rejected before the completeness check, and leaves only empty slots. -/
theorem eq_rejected_of_step (h : step now entry a = .ok (entry', o))
    (hcode : Rejection o.errorCode) :
    entry' = entry.rejected a := by
  rcases hc : checked now entry a with _ | p
  · obtain ⟨code, -, hstep⟩ := step_of_not_checked hc
    rw [hstep] at h
    cases h
    rfl
  · rw [step_of_checked hc] at h
    exact absurd hcode (finish_not_rejection h)

theorem eq_some_of_finish {q : FragmentedPackage} (h : finish p = .ok (some q, o)) : q = p := by
  unfold finish at h
  split_ifs at h <;> cases h
  rfl

theorem lastAccess_of_checked (h : checked now entry a = some p) : p.info.lastAccess = now := by
  cases a with
  | info num len =>
    simp only [checked] at h
    split_ifs at h
    cases h
    rfl
  | fragment num view =>
    obtain ⟨-, -, v, rfl, rfl⟩ := stored_eq_some h
    rfl

/-- An accepted datagram sets the last access of the package that it leaves. -/
theorem lastAccess_of_step {q : FragmentedPackage} (h : step now entry a = .ok (some q, o))
    (hcode : ¬ Rejection o.errorCode) : q.info.lastAccess = now := by
  rcases hc : checked now entry a with _ | p
  · obtain ⟨code, hcode', hstep⟩ := step_of_not_checked hc
    rw [hstep, Except.ok.injEq, Prod.mk.injEq] at h
    obtain ⟨-, rfl⟩ := h
    refine absurd ?_ hcode
    rcases hcode' with rfl | rfl
    · exact Or.inl rfl
    · exact Or.inr (Or.inl rfl)
  · rw [step_of_checked hc] at h
    rw [eq_some_of_finish h]
    exact lastAccess_of_checked hc

end Entry

/-! ## Calls are steps on entries -/

/-- An outcome with an error has no message. -/
def Reassembly.Outcome.Proper (o : Outcome) : Prop := o.errorCode ≠ .ok → o.message = none

theorem Entry.finish_proper {p : FragmentedPackage} {entry : Entry} {o : Outcome}
    (h : Entry.finish p = .ok (entry, o)) : o.Proper := by
  unfold Entry.finish at h
  split_ifs at h <;> cases h
  · exact fun hcode => absurd rfl hcode
  · exact fun _ => rfl
  · exact fun hcode => absurd rfl hcode

theorem Entry.step_proper {now : TimePoint} {entry entry' : Entry} {a : Arrival} {o : Outcome}
    (h : Entry.step now entry a = .ok (entry', o)) : o.Proper := by
  rcases hc : Entry.checked now entry a with _ | p
  · obtain ⟨code, -, hstep⟩ := Entry.step_of_not_checked hc
    rw [hstep] at h
    cases h
    exact fun _ => rfl
  · rw [Entry.step_of_checked hc] at h
    exact Entry.finish_proper h

theorem otherOutcome_proper (host : ByteOrder) (buffer : RawMemory) :
    (otherOutcome host buffer).Proper := by
  unfold otherOutcome
  by_cases hsize : buffer.size < sizeofHeader
  · rw [dif_pos hsize]
    exact fun _ => rfl
  · rw [dif_neg hsize]
    simp only
    split_ifs
    · exact fun _ => rfl
    · exact fun hcode => absurd rfl hcode
    · exact fun _ => rfl

theorem outcome_dropOnError {r : HandlerResult E} (h : (outcome r.2).Proper) :
    outcome (dropOnError r).2 = outcome r.2 := by
  unfold dropOnError outcome
  simp only
  by_cases hcode : r.2.2.errorCode = .ok
  · rw [if_neg (by simp [Error.toBool, hcode])]
  · rw [if_pos (by simp [Error.toBool, hcode])]
    have hnone : r.2.1.map OwningBuffer.bytes = none := h hcode
    rw [hnone]
    rfl

theorem map_dropOnError {x : Except Fault (HandlerResult E)}
    (h : ∀ packages o, observed x = .ok (packages, o) → o.Proper) :
    observed (x.map dropOnError) = observed x := by
  cases x with
  | error e => rfl
  | ok r =>
    show Except.ok ((dropOnError r).1, outcome (dropOnError r).2) = Except.ok (r.1, outcome r.2)
    rw [outcome_dropOnError (h _ _ rfl)]
    rfl

namespace Socket

variable (host : ByteOrder)

/-- The oldest last access with which a package survives the call. -/
def limit (settings : SocketSettings) (r : Receipt E) : TimePoint :=
  r.pruneNow - settings.maxReassemblyAge

/-- The id and the content of an info or fragment datagram that reaches the reassembly. -/
def arrivalOf (host : ByteOrder) (settings : SocketSettings) (buffer : RawMemory) :
    Option (Int32 × Arrival) :=
  if PassesHeader settings buffer then Ecaludp.arrivalOf host buffer else none

/-- What the socket returns for any other datagram. -/
def otherOutcome (host : ByteOrder) (settings : SocketSettings) (buffer : RawMemory) : Outcome :=
  if PassesHeader settings buffer then Ecaludp.otherOutcome host buffer
  else ⟨none, (headerError settings buffer).errorCode⟩

theorem step_eq_observed (packages : Reassembly E) (r : Receipt E) :
    step host settings packages r =
      observed (handleReceived (Reassembly.handleDatagram host) settings r.pruneNow r.env r.buffer
        r.senderEndpoint r.error packages) := rfl

theorem step_of_arrivalOf (packages : Reassembly E) {r : Receipt E} {id : Int32} {a : Arrival}
    (h : arrivalOf host settings r.buffer = some (id, a)) :
    step host settings packages r =
      (Entry.step r.env.now
          (Entry.prune (limit settings r)
            packages[(⟨r.senderEndpoint, id⟩ : FragmentedPackageKey E)]?) a).map
        fun x => (put (packages.removeOldPackages (limit settings r)) ⟨r.senderEndpoint, id⟩ x.1,
          x.2) := by
  unfold arrivalOf at h
  split_ifs at h with hpasses
  have hstep := handleDatagram_eq_step host r.env r.buffer r.senderEndpoint r.error
    (packages.removeOldPackages (limit settings r)) h
  rw [step_eq_observed, handleReceived_of_passesHeader hpasses, map_dropOnError]
  · rw [show r.pruneNow - settings.maxReassemblyAge = limit settings r from rfl, hstep,
      getElem?_removeOldPackages]
    rfl
  · intro packages' o ho
    rw [show r.pruneNow - settings.maxReassemblyAge = limit settings r from rfl, hstep] at ho
    obtain ⟨x, hx, hxo⟩ := Machine.map_eq_ok.mp ho
    cases hxo
    exact Entry.step_proper hx

theorem step_of_arrivalOf_none (packages : Reassembly E) {r : Receipt E}
    (h : arrivalOf host settings r.buffer = none) :
    step host settings packages r =
      .ok (packages.removeOldPackages (limit settings r), otherOutcome host settings r.buffer) := by
  unfold arrivalOf at h
  unfold otherOutcome
  rw [step_eq_observed]
  split_ifs at h ⊢ with hpasses
  · have hother := handleDatagram_of_arrivalOf_none host r.env r.buffer r.senderEndpoint r.error
      (packages.removeOldPackages (limit settings r)) h
    rw [handleReceived_of_passesHeader hpasses, map_dropOnError]
    · exact hother
    · intro packages' o ho
      rw [show r.pruneNow - settings.maxReassemblyAge = limit settings r from rfl, hother] at ho
      cases ho
      exact otherOutcome_proper host r.buffer
  · rw [handleReceived_of_not_passesHeader hpasses]
    rfl

end Socket

end Ecaludp
