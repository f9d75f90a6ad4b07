import Ecaludp.Reassembly.Message

/-!
# Exact delivery

A network that loses, duplicates and reorders datagrams hands the parts of many messages to one
`Reassembly`, in between old packages are removed. The specification of what comes out is
`collectStep`: one collector a message, which refuses what it has, delivers the message when it has
everything and starts again then, or after a removal. `run_exact` is the refinement.
-/

namespace Ecaludp

open ByteOrder EntryMap

namespace Reassembly

variable {E : Type} [LinearOrder E] {messages : FragmentedPackageKey E → Message}

/-- One event of the run: a buffer with the datagram of a part arrives, whatever the memory behind
the datagram, or old packages are removed. -/
inductive Feed (messages : FragmentedPackageKey E → Message) where
  | datagram (key : FragmentedPackageKey E) (part : Part) (hpart : part ∈ (messages key).parts)
      (magic : Magic) (env : Env) (buffer : RawMemory)
      (hbuffer : buffer.bytes = (messages key).encode magic key.id part) (error : Error)
  | removeOldPackages (maxAge : TimePoint)

/-- The call that an event makes. -/
def Feed.call : Feed messages → Call E
  | .datagram key _ _ _ env buffer _ error => .handleDatagram env buffer key.endpoint error
  | .removeOldPackages maxAge => .removeOldPackages maxAge

/-- The specification: one collector for each key. -/
def collectStep (messages : FragmentedPackageKey E → Message)
    (states : FragmentedPackageKey E → Collect.State Part TimePoint) :
    Feed messages →
      Except Fault ((FragmentedPackageKey E → Collect.State Part TimePoint) × Option Outcome)
  | .datagram key part _ _ env _ _ _ =>
    let r := Collect.offer (messages key).parts env.now (states key) part
    .ok (Function.update states key r.1, some ((messages key).outcome r.2))
  | .removeOldPackages maxAge => .ok (fun key => Collect.expire maxAge (states key), none)

/-- Every entry holds what the collector of its key has. -/
def RepresentsAll (messages : FragmentedPackageKey E → Message)
    (states : FragmentedPackageKey E → Collect.State Part TimePoint) (packages : Reassembly E) :
    Prop :=
  ∀ key : FragmentedPackageKey E, (messages key).Represents (states key) packages[key]?

/-- The collectors and the object answer alike and stay related. -/
theorem step_agree (host : ByteOrder)
    {states : FragmentedPackageKey E → Collect.State Part TimePoint} {packages : Reassembly E}
    (h : RepresentsAll messages states packages) (feed : Feed messages) :
    Machine.Agree (RepresentsAll messages) (collectStep messages states feed)
      (step host packages feed.call) := by
  cases feed with
  | datagram key part hpart magic env buffer hbuffer error =>
    obtain ⟨a, harr, hreads⟩ := Message.arrivalOf_encode host hbuffer
    obtain ⟨entry', hstep, hentry'⟩ := Message.step_of_reads (h key) hpart hreads env.now
    have hcall := step_of_arrivalOf host env buffer key.endpoint error packages harr
    rw [hstep] at hcall
    rw [Feed.call, hcall]
    refine .ok _ fun k => ?_
    rw [getElem?_put]
    by_cases hk : key = k
    · subst hk
      rw [if_pos rfl, Function.update_self]
      exact hentry'
    · rw [if_neg hk, Function.update_of_ne (Ne.symm hk)]
      exact h k
  | removeOldPackages maxAge =>
    refine .ok _ fun k => ?_
    rw [getElem?_removeOldPackages]
    exact (h k).prune maxAge

/-- Exact delivery: whatever parts arrive in whatever order, a new object returns what the
collectors return, and in the end holds what they have. -/
theorem run_exact (host : ByteOrder) (messages : FragmentedPackageKey E → Message)
    (feeds : List (Feed messages)) :
    (Machine.run (step host) (∅ : Reassembly E) (feeds.map Feed.call)).1 =
        (Machine.run (collectStep messages) (fun _ => ⟨∅, 0⟩) feeds).1 ∧
      ∃ states packages,
        (Machine.run (collectStep messages) (fun _ => ⟨∅, 0⟩) feeds).2 = .ok states ∧
        (Machine.run (step host) (∅ : Reassembly E) (feeds.map Feed.call)).2 = .ok packages ∧
        RepresentsAll messages states packages := by
  have hinit : RepresentsAll messages (fun _ => ⟨∅, 0⟩) (∅ : Reassembly E) := by
    intro key
    rw [Std.ExtTreeMap.getElem?_empty]
    rfl
  obtain ⟨houts, ⟨e, hfault, -⟩ | ⟨states, packages, hstates, hpackages, hall⟩⟩ :=
    Machine.run_eq_of_agree (fun _ _ feed (_ : feed ∈ feeds) h => step_agree host h feed) hinit
  · have htotal : ∀ states feed, ∃ r, collectStep messages states feed = .ok r := by
      intro states feed
      cases feed <;> exact ⟨_, rfl⟩
    obtain ⟨states, hstates⟩ := Machine.run_ok_of_step_ok htotal (fun _ => ⟨∅, 0⟩) feeds
    rw [hstates] at hfault
    cases hfault
  · exact ⟨houts.symm, states, packages, hstates, hpackages, hall⟩

end Reassembly

end Ecaludp
