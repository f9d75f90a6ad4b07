import Ecaludp.Reassembly.Package

/-!
# Null fragments

`handle_fragmented_package_if_complete` dereferences every slot once its two counters agree. On a
counted package no slot is empty then. An info that cuts off a stored fragment leaves the package
overcounted: if it announces fewer fragments than were counted, the counters never agree again
(`Stuck`); otherwise they agree, at once or later, while a slot is empty.

`AnnouncementFits` is the condition on a call, in the state before it, under which the second case
is excluded. In a run of such calls no step faults (`run_ok_of_announcementFits`); a call that
violates it can be followed by fragments that make the run fault (`exists_fault_of_misfit`).
-/

namespace Ecaludp

open ByteOrder Reassembly EntryMap

namespace FragmentedPackage

variable {p : FragmentedPackage} {num : UInt32}

/-- An overcounted package whose counters cannot agree any more. -/
structure Stuck (p : FragmentedPackage) : Prop where
  overcounted : p.Overcounted
  passed : p.info.totalFragments.toNat < p.info.receivedFragments.toNat

/-- A package on which the completeness check is sound. -/
def Sound (p : FragmentedPackage) : Prop := p.Counted ∨ p.Stuck

/-- An info that announces `num` fragments cuts off no fragment of the package, or fewer fragments
than the package has counted. -/
def Fits (p : FragmentedPackage) (num : UInt32) : Prop :=
  ¬ p.CutsOff num ∨ num < p.info.receivedFragments

/-- Completeness is what it says. Where the counters agree, no slot is empty. -/
theorem Sound.filled (h : p.Sound) (hinfo : p.info.fragmentInfoReceived = true)
    (heq : p.info.receivedFragments = p.info.totalFragments) :
    SlotList.filled p.fragments = p.fragments.length := by
  rcases h with h | h
  · exact (complete_iff_filled.mp (h.complete_iff.mpr ⟨hinfo, heq⟩)).2
  · have := h.passed
    rw [heq] at this
    omega

theorem Sound.withRoom (h : p.Sound) (num : UInt32) : (p.withRoom num).Sound := by
  rcases h with h | h
  · exact Or.inl (h.withRoom num)
  · rw [withRoom_of_info h.overcounted.announced]
    exact Or.inr h

theorem Sound.withFragment (h : p.Sound) (now : TimePoint) (view : OwningBuffer)
    (hlt : num.toNat < p.fragments.length) (hempty : SlotList.get p.fragments num.toNat = none) :
    (p.withFragment now num view).Sound := by
  rcases h with h | h
  · exact Or.inl (h.withFragment hlt hempty now view)
  · obtain ⟨hover, hreceived⟩ := h.overcounted.withFragment hlt hempty now view
    refine Or.inr ⟨hover, ?_⟩
    rw [hreceived]
    exact Nat.lt_succ_of_lt h.passed

/-- A package without info is counted, not stuck. -/
theorem Sound.counted (h : p.Sound) (hinfo : p.info.fragmentInfoReceived = false) : p.Counted := by
  rcases h with h | h
  · exact h
  · have := h.overcounted.announced
    rw [hinfo] at this
    cases this

/-- An info that fits leaves a sound package. -/
theorem Counted.withInfo_sound (h : p.Counted) (now : TimePoint) (len : UInt32)
    (hfits : p.Fits num) : (p.withInfo now num len).Sound := by
  by_cases hcut : p.CutsOff num
  · refine Or.inr ⟨h.withInfo_overcounted now len hcut, ?_⟩
    exact UInt32.lt_iff_toNat_lt.mp (hfits.resolve_left (not_not.mpr hcut))
  · exact Or.inl (h.withInfo now len hcut)

end FragmentedPackage

namespace Entry

open FragmentedPackage

/-- The package of an entry, if there is one, is sound. -/
def Sound (entry : Entry) : Prop := ∀ p, entry = some p → p.Sound

theorem sound_none : Sound none := by
  intro p h
  cases h

theorem Sound.package {entry : Entry} (h : entry.Sound) : entry.package.Sound := by
  cases entry with
  | none => exact Or.inl counted_default
  | some p => exact h p rfl

theorem sound_some {p : FragmentedPackage} (h : p.Sound) : Sound (some p) := by
  intro q hq
  cases hq
  exact h

/-- A sound package is delivered, dropped or left without a fault. -/
theorem finish_ok {p : FragmentedPackage} (h : p.Sound) :
    ∃ entry o, finish p = .ok (entry, o) ∧ entry.Sound := by
  unfold finish
  split_ifs with hc hf
  · exact ⟨_, _, rfl, sound_none⟩
  · exact ⟨_, _, rfl, sound_none⟩
  · exact absurd (h.filled hc.1 hc.2) hf
  · exact ⟨_, _, rfl, sound_some h⟩

/-- The arrival is no info, or one that fits the package. -/
def Fits (entry : Entry) : Arrival → Prop
  | .info num _ => entry.package.info.fragmentInfoReceived = false → entry.package.Fits num
  | .fragment _ _ => True

theorem checked_sound {entry : Entry} {a : Arrival} {now : TimePoint} {p : FragmentedPackage}
    (h : entry.Sound) (hfits : entry.Fits a) (hp : checked now entry a = some p) : p.Sound := by
  cases a with
  | info num len =>
    simp only [checked] at hp
    split_ifs at hp with hinfo
    have hfalse : entry.package.info.fragmentInfoReceived = false := by simpa using hinfo
    cases hp
    exact (h.package.counted hfalse).withInfo_sound now len (hfits hfalse)
  | fragment num view =>
    obtain ⟨hlt, hempty, v, rfl, rfl⟩ := stored_eq_some hp
    exact (h.package.withRoom num).withFragment now v hlt hempty

theorem Sound.rejected {entry : Entry} (h : entry.Sound) (a : Arrival) :
    (entry.rejected a).Sound := by
  cases a with
  | info num len => exact h
  | fragment num view => exact sound_some (h.package.withRoom num)

/-- A handler does not fault on a sound entry and leaves it sound. -/
theorem step_ok {entry : Entry} (h : entry.Sound) (now : TimePoint) {a : Arrival}
    (hfits : entry.Fits a) : ∃ entry' o, step now entry a = .ok (entry', o) ∧ entry'.Sound := by
  rcases hc : checked now entry a with _ | p
  · obtain ⟨code, -, hstep⟩ := step_of_not_checked hc
    exact ⟨_, _, hstep, h.rejected a⟩
  · rw [step_of_checked hc]
    exact finish_ok (checked_sound h hfits hc)

theorem Sound.prune {entry : Entry} (h : entry.Sound) (maxAge : TimePoint) :
    (entry.prune maxAge).Sound := by
  intro p hp
  exact h p (prune_eq_some.mp hp).1

end Entry

namespace Reassembly

variable {E : Type} [LinearOrder E] {host : ByteOrder} {packages : Reassembly E}

/-! ## Runs -/

/-- Every stored package is sound. -/
def Sound (packages : Reassembly E) : Prop :=
  ∀ key : FragmentedPackageKey E, Entry.Sound packages[key]?

/-- No call cuts off a fragment that stays counted: a fragmentation info for a package without info
announces more fragments than the number of every stored one, or fewer than are stored. -/
def AnnouncementFits (host : ByteOrder) (packages : Reassembly E) : Call E → Prop
  | .handleDatagram _ buffer senderEndpoint _ =>
    ∀ id a, arrivalOf host buffer = some (id, a) →
      Entry.Fits packages[(⟨senderEndpoint, id⟩ : FragmentedPackageKey E)]? a
  | .removeOldPackages _ => True

/-- The package on which a call runs the completeness check, if it gets that far. -/
def checked (host : ByteOrder) (packages : Reassembly E) : Call E → Option FragmentedPackage
  | .handleDatagram env buffer senderEndpoint _ =>
    (arrivalOf host buffer).bind fun r =>
      Entry.checked env.now packages[(⟨senderEndpoint, r.1⟩ : FragmentedPackageKey E)]? r.2
  | .removeOldPackages _ => none

/-- Where the completeness check passes, the package has a fragment in every slot. -/
def CompletenessHolds (host : ByteOrder) (packages : Reassembly E) (call : Call E) : Prop :=
  ∀ p, checked host packages call = some p → p.info.fragmentInfoReceived = true →
    p.info.receivedFragments = p.info.totalFragments →
    ∀ i < p.fragments.length, (SlotList.get p.fragments i).isSome

theorem sound_empty : Sound (∅ : Reassembly E) := by
  intro key
  rw [Std.ExtTreeMap.getElem?_empty]
  exact Entry.sound_none

theorem Sound.completenessHolds (h : packages.Sound) {call : Call E}
    (hfits : AnnouncementFits host packages call) : CompletenessHolds host packages call := by
  intro p hp hinfo heq
  cases call with
  | handleDatagram env buffer senderEndpoint error =>
    obtain ⟨⟨id, a⟩, harr, hchecked⟩ := Option.bind_eq_some_iff.mp hp
    have hsound := Entry.checked_sound (h ⟨senderEndpoint, id⟩) (hfits id a harr) hchecked
    exact SlotList.filled_eq_length_iff.mp (hsound.filled hinfo heq)
  | removeOldPackages maxAge => cases hp

theorem step_ok (h : packages.Sound) {call : Call E} (hfits : AnnouncementFits host packages call) :
    ∃ packages' o, step host packages call = .ok (packages', o) ∧ packages'.Sound := by
  cases call with
  | handleDatagram env buffer senderEndpoint error =>
    rcases harr : arrivalOf host buffer with _ | ⟨id, a⟩
    · exact ⟨_, _, step_of_arrivalOf_none host env buffer senderEndpoint error packages harr, h⟩
    · obtain ⟨entry, o, hstep, hentry⟩ := Entry.step_ok (h ⟨senderEndpoint, id⟩) env.now
        (hfits id a harr)
      refine ⟨put packages ⟨senderEndpoint, id⟩ entry, some o, ?_, ?_⟩
      · rw [step_of_arrivalOf host env buffer senderEndpoint error packages harr, hstep]
        rfl
      · intro key
        rw [getElem?_put]
        split_ifs
        · exact hentry
        · exact h key
  | removeOldPackages maxAge =>
    refine ⟨_, _, rfl, fun key => ?_⟩
    rw [getElem?_removeOldPackages]
    exact (h key).prune maxAge

/-- No null fragment: in a run from a new object whose calls all fit, no step faults, and where the
completeness check passes, the package has no empty slot. -/
theorem run_ok_of_announcementFits (host : ByteOrder) (calls : List (Call E))
    (hfits : Machine.Along (step host) (AnnouncementFits host) (∅ : Reassembly E) calls) :
    (∃ packages, (Machine.run (step host) (∅ : Reassembly E) calls).2 = .ok packages) ∧
      Machine.Along (step host) (CompletenessHolds host) (∅ : Reassembly E) calls := by
  obtain ⟨⟨packages, hend, -⟩, halong⟩ := Machine.run_ok_of_invariant (I := Sound)
    (fun packages call h hP => step_ok h hP) sound_empty hfits
  exact ⟨⟨packages, hend⟩, (halong.and hfits).mono fun _ _ h => h.1.completenessHolds h.2⟩

/-- Two fragments and the info that announces them; and three fragments with an info that announces
two, fewer than were counted. -/
def fragmentsFirst : List (Call ℕ) :=
  [emptyFragmentCall ⟨0, 7⟩ 1, emptyFragmentCall ⟨0, 7⟩ 0, emptyInfoCall ⟨0, 7⟩ 2,
    emptyFragmentCall ⟨0, 8⟩ 0, emptyFragmentCall ⟨0, 8⟩ 1, emptyFragmentCall ⟨0, 8⟩ 2,
    emptyInfoCall ⟨0, 8⟩ 2]

theorem fits_emptyFragmentCall (host : ByteOrder) (packages : Reassembly E)
    (key : FragmentedPackageKey E) (num : UInt32) :
    AnnouncementFits host packages (emptyFragmentCall key num) := by
  intro id a harr
  obtain ⟨view, harr'⟩ := arrivalOf_emptyFragment host key.id num
  cases harr.symm.trans harr'
  trivial

theorem fits_emptyInfoCall {key : FragmentedPackageKey E} {p : FragmentedPackage}
    (hp : packages[key]? = some p) {num : UInt32} (hfits : p.Fits num) :
    AnnouncementFits host packages (emptyInfoCall key num) := by
  intro id a harr
  cases harr.symm.trans (arrivalOf_emptyInfo host key.id num)
  intro _
  rw [show (⟨key.endpoint, key.id⟩ : FragmentedPackageKey E) = key from rfl, hp]
  exact hfits

theorem fits_fragmentsFirst :
    Machine.Along (step .littleEndian) (AnnouncementFits .littleEndian) (∅ : Reassembly ℕ)
      fragmentsFirst := by
  refine .of_take fun k hk packages hrun => ?_
  change k < 7 at hk
  -- the package before an info: the number of its slots and the counter of its fragments
  have hpackage (key : FragmentedPackageKey ℕ) (x : ℕ × UInt32)
      (h : (Machine.run (step .littleEndian) (∅ : Reassembly ℕ)
        (fragmentsFirst.take k)).2.toOption.bind (fun packages => packages[key]?.map fun p =>
          (p.fragments.length, p.info.receivedFragments)) = some x) :
      ∃ p, packages[key]? = some p ∧ p.fragments.length = x.1 ∧
        p.info.receivedFragments = x.2 := by
    rw [hrun] at h
    obtain ⟨p, hp, rfl⟩ := Option.map_eq_some_iff.mp h
    exact ⟨p, hp, rfl, rfl⟩
  interval_cases k
  · exact fits_emptyFragmentCall _ _ _ _
  · exact fits_emptyFragmentCall _ _ _ _
  · obtain ⟨p, hp, hlength, -⟩ := hpackage ⟨0, 7⟩ (2, 2) (by decide +kernel)
    refine fits_emptyInfoCall hp (Or.inl ?_)
    exact FragmentedPackage.not_cutsOff_of_length_le (Nat.le_of_eq hlength)
  · exact fits_emptyFragmentCall _ _ _ _
  · exact fits_emptyFragmentCall _ _ _ _
  · exact fits_emptyFragmentCall _ _ _ _
  · obtain ⟨p, hp, -, hreceived⟩ := hpackage ⟨0, 8⟩ (3, 3) (by decide +kernel)
    refine fits_emptyInfoCall hp (Or.inr ?_)
    rw [hreceived]
    decide

theorem run_fragmentsFirst_ok :
    (Machine.run (step .littleEndian) (∅ : Reassembly ℕ) fragmentsFirst).1 =
        [some ⟨none, .ok⟩, some ⟨none, .ok⟩, some ⟨some [], .ok⟩, some ⟨none, .ok⟩,
          some ⟨none, .ok⟩, some ⟨none, .ok⟩, some ⟨none, .ok⟩] ∧
      (∃ packages, (Machine.run (step .littleEndian) (∅ : Reassembly ℕ) fragmentsFirst).2 =
        .ok packages) ∧
      Machine.Along (step .littleEndian) (CompletenessHolds .littleEndian) (∅ : Reassembly ℕ)
        fragmentsFirst :=
  ⟨by decide +kernel, run_ok_of_announcementFits .littleEndian _ fits_fragmentsFirst⟩

/-- A fragment 1 that comes before an info announcing one fragment is cut off, but stays counted:
the counters agree on a list whose only slot is empty. -/
theorem run_surplus_fragment_faults :
    (Machine.run (step .littleEndian) (∅ : Reassembly ℕ)
      [emptyFragmentCall ⟨0, 7⟩ 1, emptyInfoCall ⟨0, 7⟩ 1]).2 = .error .nullFragment := by
  rfl

/-! ## The condition is needed -/

theorem step_emptyFragmentCall (host : ByteOrder) (packages : Reassembly E)
    (key : FragmentedPackageKey E) (num : UInt32) :
    ∃ view, step host packages (emptyFragmentCall key num) =
      (Entry.step 0 packages[key]? (.fragment num (some view))).map
        fun r => (put packages key r.1, some r.2) := by
  obtain ⟨view, harr⟩ := arrivalOf_emptyFragment host key.id num
  exact ⟨view, step_of_arrivalOf host _ _ key.endpoint _ packages harr⟩

theorem exists_step_of_overcounted (host : ByteOrder) {key : FragmentedPackageKey E}
    {p : FragmentedPackage} (hp : packages[key]? = some p) (hover : p.Overcounted)
    (hlt : p.info.receivedFragments.toNat < p.info.totalFragments.toNat) :
    ∃ call : Call E, step host packages call = .error .nullFragment ∨
      ∃ (packages' : Reassembly E) (p' : FragmentedPackage) (o : Option Outcome),
        step host packages call = .ok (packages', o) ∧ packages'[key]? = some p' ∧
        p'.Overcounted ∧ p'.info.receivedFragments.toNat = p.info.receivedFragments.toNat + 1 ∧
        p'.info.totalFragments = p.info.totalFragments ∧
        p'.info.receivedFragments ≠ p'.info.totalFragments := by
  have htotal := hover.total
  have hexceeds := hover.exceeds
  have hbound := p.info.totalFragments.toNat_lt
  obtain ⟨i, hi, hempty⟩ := SlotList.exists_get_eq_none (l := p.fragments) (by omega)
  have hnum : (UInt32.ofNat i).toNat = i := by
    rw [UInt32.toNat_ofNat', Nat.mod_eq_of_lt (by omega)]
  rw [← hnum] at hi hempty
  obtain ⟨view, hstep⟩ := step_emptyFragmentCall host packages key (UInt32.ofNat i)
  have hroom : p.withRoom (UInt32.ofNat i) = p :=
    FragmentedPackage.withRoom_of_info hover.announced _
  have hlength : (Entry.package (some p)).fragments.length < 2 ^ 32 := by
    rw [show (Entry.package (some p)).fragments = p.fragments from rfl]
    omega
  rw [hp, Entry.step_fragment_of_new hlength (hroom.symm ▸ hi)
    (FragmentedPackage.part_eq_none.mpr hempty), show Entry.package (some p) = p from rfl,
    hroom] at hstep
  refine ⟨emptyFragmentCall key (UInt32.ofNat i), ?_⟩
  rw [hstep]
  obtain ⟨hover', hreceived⟩ := hover.withFragment hi hempty 0 view
  rcases Entry.finish_of_overcounted hover' with ⟨-, hfault⟩ | ⟨hne, hleft⟩
  · left
    rw [hfault]
    rfl
  · right
    rw [hleft]
    exact ⟨_, _, _, rfl, getElem?_put_self _ _ _, hover', hreceived, rfl, hne⟩

/-- An overcounted package whose counters can still agree can be fed until they do. -/
theorem exists_fault_of_overcounted (host : ByteOrder) (key : FragmentedPackageKey E) (n : ℕ) :
    ∀ (packages : Reassembly E) (p : FragmentedPackage), packages[key]? = some p →
      p.Overcounted → p.info.totalFragments.toNat = p.info.receivedFragments.toNat + (n + 1) →
      ∃ calls : List (Call E),
        (Machine.run (step host) packages calls).2 = .error .nullFragment := by
  induction n with
  | zero =>
    intro packages p hp hover hn
    obtain ⟨call, hstep | ⟨packages', p', o, -, -, -, hreceived, htotal, hne⟩⟩ :=
      exists_step_of_overcounted host hp hover (by omega)
    · exact ⟨[call], congrArg Prod.snd (Machine.run_cons_error hstep _)⟩
    · refine absurd (UInt32.toNat_inj.mp ?_) hne
      rw [hreceived, htotal, hn]
  | succ n ih =>
    intro packages p hp hover hn
    obtain ⟨call, hstep | ⟨packages', p', o, hstep, hp', hover', hreceived, htotal, -⟩⟩ :=
      exists_step_of_overcounted host hp hover (by omega)
    · exact ⟨[call], congrArg Prod.snd (Machine.run_cons_error hstep _)⟩
    · obtain ⟨calls, hcalls⟩ := ih packages' p' hp' hover' (by rw [htotal]; omega)
      refine ⟨call :: calls, ?_⟩
      rw [Machine.run_cons_ok hstep]
      exact hcalls

/-- The condition is needed. A fragmentation info that does not fit the package stored for it can be
followed by calls that dereference a null fragment. -/
theorem exists_fault_of_misfit (h : packages.Sound) {call : Call E}
    (hmisfit : ¬ AnnouncementFits host packages call) :
    ∃ calls : List (Call E),
      (Machine.run (step host) packages (call :: calls)).2 = .error .nullFragment := by
  cases call with
  | removeOldPackages maxAge => exact absurd trivial hmisfit
  | handleDatagram env buffer senderEndpoint error =>
    simp only [AnnouncementFits, not_forall] at hmisfit
    obtain ⟨id, a, harr, hmisfit⟩ := hmisfit
    cases a with
    | fragment num view => exact absurd trivial hmisfit
    | info num len =>
      simp only [Entry.Fits, not_forall, FragmentedPackage.Fits, not_or, not_not] at hmisfit
      obtain ⟨hinfo, hcut, hnum⟩ := hmisfit
      have hstep := step_of_arrivalOf host env buffer senderEndpoint error packages harr
      set key : FragmentedPackageKey E := ⟨senderEndpoint, id⟩
      have hover := ((h key).package.counted hinfo).withInfo_overcounted env.now len hcut
      rw [Entry.step, if_neg (by simp [hinfo])] at hstep
      rcases Entry.finish_of_overcounted hover with ⟨-, hfault⟩ | ⟨hne, hleft⟩
      · rw [hfault] at hstep
        exact ⟨[], congrArg Prod.snd (Machine.run_cons_error hstep _)⟩
      · rw [hleft] at hstep
        have hle : (Entry.package packages[key]?).info.receivedFragments.toNat ≤ num.toNat :=
          UInt32.le_iff_toNat_le.mp (UInt32.not_lt.mp hnum)
        have hlt := lt_of_le_of_ne hle fun heq => hne (UInt32.toNat_inj.mp heq)
        obtain ⟨n, hn⟩ := Nat.exists_eq_add_of_lt hlt
        obtain ⟨calls, hcalls⟩ := exists_fault_of_overcounted host key n _ _
          (getElem?_put_self packages key _) hover hn
        refine ⟨calls, ?_⟩
        rw [Machine.run_cons_ok hstep]
        exact hcalls

end Reassembly

end Ecaludp
