import Ecaludp.Reassembly.Datagram

/-!
# Isolation of messages

A handler reads and writes the entry of its own key (`handleDatagram_eq_step`), and
`remove_old_packages` decides on every entry by itself. So the entry of a key, and what is
returned for its datagrams, are those of a run without the datagrams of the other keys
(`run_isolated`), whatever buffers the pool hands out there.
-/

namespace Ecaludp

open ByteOrder EntryMap

namespace Reassembly

variable {E : Type} [LinearOrder E] {host : ByteOrder} {key : FragmentedPackageKey E}
  {packages packages' : Reassembly E}

/-- The call hands in an info or fragment datagram of `key`, or removes old packages. -/
def concerns (host : ByteOrder) (key : FragmentedPackageKey E) : Call E → Bool
  | .handleDatagram _ buffer senderEndpoint _ =>
    match arrivalOf host buffer with
    | some (id, _) => decide (⟨senderEndpoint, id⟩ = key)
    | none => false
  | .removeOldPackages _ => true

/-- The calls hand in the same datagram at the same time, or remove the same packages; the pooled
buffers and the error objects may differ. -/
inductive SameInput : Call E → Call E → Prop
  | handleDatagram (now : TimePoint) (pooled pooled' : RawMemory) (fresh fresh' : ℕ → UInt8)
      (buffer : RawMemory) (senderEndpoint : E) (error error' : Error) :
      SameInput (.handleDatagram ⟨now, pooled, fresh⟩ buffer senderEndpoint error)
        (.handleDatagram ⟨now, pooled', fresh'⟩ buffer senderEndpoint error')
  | removeOldPackages (maxAge : TimePoint) :
      SameInput (.removeOldPackages maxAge) (.removeOldPackages maxAge)

/-- One call, with the package that it leaves stored for `key`. -/
def stepAt (host : ByteOrder) (key : FragmentedPackageKey E) (packages : Reassembly E)
    (call : Call E) : Except Fault (Reassembly E × Option Outcome × Option FragmentedPackage) :=
  (step host packages call).map fun r => (r.1, r.2, r.1[key]?)

theorem stepAt_eq_ok {call : Call E} {r : Option Outcome × Option FragmentedPackage} :
    stepAt host key packages call = .ok (packages', r) ↔
      step host packages call = .ok (packages', r.1) ∧ r.2 = packages'[key]? := by
  unfold stepAt
  rw [Machine.map_eq_ok]
  constructor
  · rintro ⟨r, hstep, hr⟩
    cases hr
    exact ⟨hstep, rfl⟩
  · rintro ⟨hstep, hr⟩
    exact ⟨_, hstep, by rw [← hr]⟩

/-- A call that does not concern `key` leaves its entry alone. -/
theorem getElem?_step_of_not_concerns {call : Call E} {o : Option Outcome}
    (hcall : concerns host key call = false)
    (hstep : step host packages call = .ok (packages', o)) :
    packages'[key]? = packages[key]? := by
  cases call with
  | removeOldPackages maxAge => cases hcall
  | handleDatagram env buffer senderEndpoint error =>
    simp only [concerns] at hcall
    rcases harr : arrivalOf host buffer with _ | ⟨id, a⟩
    · rw [step_of_arrivalOf_none host env buffer senderEndpoint error packages harr] at hstep
      cases hstep
      rfl
    · rw [harr] at hcall
      rw [step_of_arrivalOf host env buffer senderEndpoint error packages harr] at hstep
      obtain ⟨r, -, hr⟩ := Machine.map_eq_ok.mp hstep
      cases hr
      exact getElem?_put_of_ne _ (of_decide_eq_false hcall) _

theorem step_of_concerns {alone : Reassembly E} {call call' : Call E} {o : Option Outcome}
    (hentry : packages[key]? = alone[key]?) (hcall : concerns host key call = true)
    (hsame : SameInput call call') (hstep : step host packages call = .ok (packages', o)) :
    ∃ alone', step host alone call' = .ok (alone', o) ∧ packages'[key]? = alone'[key]? := by
  cases hsame with
  | removeOldPackages maxAge =>
    cases hstep
    refine ⟨_, rfl, ?_⟩
    rw [getElem?_removeOldPackages, getElem?_removeOldPackages, hentry]
  | handleDatagram now pooled pooled' fresh fresh' buffer senderEndpoint error error' =>
    simp only [concerns] at hcall
    rcases harr : arrivalOf host buffer with _ | ⟨id, a⟩
    · rw [harr] at hcall
      cases hcall
    · rw [harr] at hcall
      obtain rfl : (⟨senderEndpoint, id⟩ : FragmentedPackageKey E) = key := of_decide_eq_true hcall
      rw [step_of_arrivalOf host _ buffer senderEndpoint error packages harr] at hstep
      rw [step_of_arrivalOf host _ buffer senderEndpoint error' alone harr, ← hentry]
      obtain ⟨r, hr, hr'⟩ := Machine.map_eq_ok.mp hstep
      cases hr'
      refine ⟨_, Machine.map_eq_ok.mpr ⟨r, hr, rfl⟩, ?_⟩
      rw [getElem?_put_self, getElem?_put_self]

/-- Isolation: in a run that does not fault, what is returned for the datagrams of `key`, and the
package stored for `key` after each of them and after each removal, are those of a run of a new
object that sees nothing else. -/
theorem run_isolated (host : ByteOrder) (key : FragmentedPackageKey E)
    {calls calls' : List (Call E)} {packages : Reassembly E}
    (hrun : (Machine.run (stepAt host key) (∅ : Reassembly E) calls).2 = .ok packages)
    (hcalls' : List.Forall₂ SameInput (calls.filter (concerns host key)) calls') :
    (∃ alone, (Machine.run (stepAt host key) (∅ : Reassembly E) calls').2 = .ok alone ∧
        packages[key]? = alone[key]?) ∧
      Machine.outputsAt (concerns host key) calls
          (Machine.run (stepAt host key) (∅ : Reassembly E) calls).1 =
        (Machine.run (stepAt host key) (∅ : Reassembly E) calls').1 := by
  refine Machine.run_project (R := fun packages alone => packages[key]? = alone[key]?)
    (Q := SameInput) ?_ ?_ hcalls' rfl hrun
  · intro packages alone call call' packages' r hentry hcall hsame hstep
    obtain ⟨hstep, hr⟩ := stepAt_eq_ok.mp hstep
    obtain ⟨alone', hstep', hentry'⟩ := step_of_concerns hentry hcall hsame hstep
    exact ⟨alone', stepAt_eq_ok.mpr ⟨hstep', hr.trans hentry'⟩, hentry'⟩
  · intro packages alone call packages' r hentry hcall hstep
    exact (getElem?_step_of_not_concerns hcall (stepAt_eq_ok.mp hstep).1).trans hentry

theorem run_two_senders_isolated :
    ∃ packages, (Machine.run (stepAt .littleEndian ⟨0, 7⟩) (∅ : Reassembly ℕ)
        [emptyFragmentCall ⟨0, 7⟩ 0, emptyFragmentCall ⟨1, 7⟩ 0, emptyInfoCall ⟨0, 7⟩ 2]).2 =
          .ok packages ∧
      (∃ alone, (Machine.run (stepAt .littleEndian ⟨0, 7⟩) (∅ : Reassembly ℕ)
          [emptyFragmentCall ⟨0, 7⟩ 0, emptyInfoCall ⟨0, 7⟩ 2]).2 = .ok alone ∧
        packages[(⟨0, 7⟩ : FragmentedPackageKey ℕ)]? = alone[(⟨0, 7⟩ : FragmentedPackageKey ℕ)]?) ∧
      Machine.outputsAt (concerns .littleEndian ⟨0, 7⟩)
          [emptyFragmentCall ⟨0, 7⟩ 0, emptyFragmentCall ⟨1, 7⟩ 0, emptyInfoCall ⟨0, 7⟩ 2]
          (Machine.run (stepAt .littleEndian ⟨0, 7⟩) (∅ : Reassembly ℕ)
            [emptyFragmentCall ⟨0, 7⟩ 0, emptyFragmentCall ⟨1, 7⟩ 0, emptyInfoCall ⟨0, 7⟩ 2]).1 =
        (Machine.run (stepAt .littleEndian ⟨0, 7⟩) (∅ : Reassembly ℕ)
          [emptyFragmentCall ⟨0, 7⟩ 0, emptyInfoCall ⟨0, 7⟩ 2]).1 :=
  ⟨_, rfl, run_isolated .littleEndian ⟨0, 7⟩ rfl
    (.cons (.handleDatagram ..) (.cons (.handleDatagram ..) .nil))⟩

end Reassembly

end Ecaludp
