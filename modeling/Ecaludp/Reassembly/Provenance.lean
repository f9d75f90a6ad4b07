import Ecaludp.Reassembly.Message

/-!
# Where delivered bytes come from

One info and fragments from a pool arrive for a key, in any order and number. Whatever is delivered
then consists of as many fragments as the info announces, the `i`-th of them one that was sent under
the number `i`, and has the announced size (`step_drawn`). Nothing is said about when it is
delivered: the counters do not matter here.
-/

namespace Ecaludp

open ByteOrder Reassembly

/-- The info and the fragments that may arrive; `pool i` are the payloads with the number `i`. -/
inductive Comes (num len : UInt32) (pool : ℕ → List UInt8 → Prop) : Arrival → Prop
  | info : Comes num len pool (.info num len)
  | fragment (i : UInt32) (view : OwningBuffer) (h : pool i.toNat view.bytes) :
      Comes num len pool (.fragment i (some view))

/-- The bytes are put together from the pool as the info says. -/
def Assembled (num len : UInt32) (pool : ℕ → List UInt8 → Prop) (bytes : List UInt8) : Prop :=
  ∃ chunks : List (List UInt8), chunks.length = num.toNat ∧
    (∀ i (hi : i < chunks.length), pool i chunks[i]) ∧
    chunks.flatten = bytes ∧ bytes.length = len.toNat

/-- A package that holds fragments from the pool, and the info or none. -/
structure Drawn (num len : UInt32) (pool : ℕ → List UInt8 → Prop) (p : FragmentedPackage) :
    Prop where
  part : ∀ i bytes, p.part i = some bytes → pool i bytes
  info : p.info.fragmentInfoReceived = true →
    p.fragments.length = num.toNat ∧ p.info.totalSizeBytes = len

section Drawn

variable {num len : UInt32} {pool : ℕ → List UInt8 → Prop} {p : FragmentedPackage} {entry : Entry}
  {a : Arrival} {now : TimePoint}

theorem drawn_default : Drawn num len pool {} where
  part i bytes h := by
    rw [FragmentedPackage.part_default] at h
    cases h
  info h := by cases h

theorem Drawn.withInfo (h : Drawn num len pool p) (now : TimePoint) :
    Drawn num len pool (p.withInfo now num len) where
  part i bytes hpart := by
    rw [FragmentedPackage.part_withInfo] at hpart
    split_ifs at hpart
    exact h.part i bytes hpart
  info _ := ⟨FragmentedPackage.length_withInfo, rfl⟩

theorem Drawn.withRoom (h : Drawn num len pool p) (i : UInt32) :
    Drawn num len pool (p.withRoom i) where
  part j bytes hpart := by
    rw [FragmentedPackage.part_withRoom] at hpart
    exact h.part j bytes hpart
  info hinfo := by
    rw [FragmentedPackage.withRoom_of_info (p := p) hinfo]
    exact h.info hinfo

theorem Drawn.withFragment (h : Drawn num len pool p) {i : UInt32}
    (hi : i.toNat < p.fragments.length)
    {view : OwningBuffer} (hview : pool i.toNat view.bytes) (now : TimePoint) :
    Drawn num len pool (p.withFragment now i view) where
  part j bytes hpart := by
    rw [FragmentedPackage.part_withFragment hi] at hpart
    split_ifs at hpart with hj
    · cases hpart
      exact hj ▸ hview
    · exact h.part j bytes hpart
  info hinfo := by
    rw [FragmentedPackage.length_withFragment]
    exact h.info hinfo

theorem Drawn.finish {entry' : Entry} {o : Outcome} (h : Drawn num len pool p)
    (hfinish : Entry.finish p = .ok (entry', o)) :
    Drawn num len pool entry'.package ∧ ∀ bytes, o.message = some bytes →
      Assembled num len pool bytes := by
  unfold Entry.finish at hfinish
  split_ifs at hfinish with hcount hfilled hsize
  · cases hfinish
    refine ⟨drawn_default, fun bytes hbytes => ?_⟩
    cases hbytes
    obtain ⟨hlength, htotal⟩ := h.info hcount.1
    have hslots := SlotList.eq_map_some_of_filled hfilled
    refine ⟨p.fragments.reduceOption.map OwningBuffer.bytes, ?_, fun i hi => ?_, ?_, ?_⟩
    · rw [List.length_map, ← hlength]
      conv_rhs => rw [hslots, List.length_map]
    · apply h.part i _
      have hslot := SlotList.getElem?_reduceOption hfilled i
      rw [List.getElem?_eq_getElem (by rwa [List.length_map] at hi)] at hslot
      rw [FragmentedPackage.part, ← hslot, List.getElem_map]
      rfl
    · rw [List.flatMap_def]
    · rw [List.length_flatMap, ← htotal, ← hsize]
      simp
  · cases hfinish
    exact ⟨drawn_default, fun bytes hbytes => by cases hbytes⟩
  · cases hfinish
    exact ⟨h, fun bytes hbytes => by cases hbytes⟩

/-- One datagram of the message leaves fragments of the pool, and delivers nothing else. -/
theorem step_drawn {entry' : Entry} {o : Outcome} (h : Drawn num len pool entry.package)
    (ha : Comes num len pool a) (hstep : Entry.step now entry a = .ok (entry', o)) :
    Drawn num len pool entry'.package ∧ ∀ bytes, o.message = some bytes →
      Assembled num len pool bytes := by
  rcases hchecked : Entry.checked now entry a with _ | q
  · obtain ⟨code, -, hrejected⟩ := Entry.step_of_not_checked hchecked
    rw [hrejected] at hstep
    cases hstep
    refine ⟨?_, fun bytes hbytes => by cases hbytes⟩
    cases ha with
    | info => exact h
    | fragment i view hview => exact h.withRoom i
  · rw [Entry.step_of_checked hchecked] at hstep
    refine Drawn.finish ?_ hstep
    cases ha with
    | info =>
      simp only [Entry.checked] at hchecked
      split_ifs at hchecked
      cases hchecked
      exact h.withInfo now
    | fragment i view hview =>
      obtain ⟨hlt, -, v, hv, rfl⟩ := Entry.stored_eq_some hchecked
      cases hv
      exact (h.withRoom i).withFragment hlt hview now

/-- Delivered bytes: every message that a run returns is put together from the pool. -/
theorem run_drawn {xs : List (TimePoint × Arrival)} (hxs : ∀ x ∈ xs, Comes num len pool x.2)
    (h : Drawn num len pool entry.package) :
    ∀ o ∈ (Machine.run Entry.handle entry xs).1, ∀ outcome bytes, o = some outcome →
      outcome.message = some bytes → Assembled num len pool bytes := by
  refine Machine.forall_mem_run (I := fun entry : Entry => Drawn num len pool entry.package)
    (fun entry x hx entry' o hentry hstep => ?_) h
  obtain ⟨r, hr, heq⟩ := Machine.map_eq_ok.mp hstep
  cases heq
  obtain ⟨hdrawn, hmessage⟩ := step_drawn hentry (hxs x hx) hr
  refine ⟨hdrawn, fun outcome bytes hsome hbytes => ?_⟩
  cases hsome
  exact hmessage bytes hbytes

end Drawn

end Ecaludp
