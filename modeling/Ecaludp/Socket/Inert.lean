import Ecaludp.Socket.Receive
import Ecaludp.Reassembly.Package

/-!
# Rejected datagrams

A rejected datagram is not without effect: old packages are removed before it is looked at, and a
rejected fragment creates a package without content or adds empty slots to one without info. No
later call can tell. `Entry.Indistinct` relates entries whose handlers return the same for ever
after, and `Indistinct` the maps that are related so once the packages older than `t` are gone;
a rejected datagram leaves a map that is indistinct from the old one (`rejected_inert`).
-/

namespace Ecaludp

open ByteOrder Reassembly EntryMap

namespace FragmentedPackage

variable {p q : FragmentedPackage} {num : UInt32}

/-- A package without content: nothing in it but the time of a last access. -/
structure Blank (p : FragmentedPackage) : Prop where
  info : p.info = { lastAccess := p.info.lastAccess }
  slots : ∀ i, SlotList.get p.fragments i = none

/-- Packages with the same content; without info the lists may have different lengths. -/
structure Alike (p q : FragmentedPackage) : Prop where
  info : p.info = q.info
  slots : ∀ i, SlotList.get p.fragments i = SlotList.get q.fragments i
  length : p.info.fragmentInfoReceived = true → p.fragments.length = q.fragments.length

/-- The packages cannot be told apart by what handlers return. -/
structure Similar (p q : FragmentedPackage) : Prop where
  left_lt : p.fragments.length < 2 ^ 32
  right_lt : q.fragments.length < 2 ^ 32
  content : p.Blank ∧ q.Blank ∨ p.Alike q

theorem blank_default : Blank {} := ⟨rfl, fun _ => rfl⟩

theorem Blank.fragmentInfoReceived (h : p.Blank) : p.info.fragmentInfoReceived = false := by
  rw [h.info]

theorem Alike.refl (p : FragmentedPackage) : p.Alike p := ⟨rfl, fun _ => rfl, fun _ => rfl⟩

theorem Alike.eq (h : p.Alike q) (hinfo : p.info.fragmentInfoReceived = true) : p = q := by
  obtain ⟨info, fragments⟩ := p
  obtain ⟨info', fragments'⟩ := q
  obtain ⟨rfl, hslots, hlength⟩ := h
  exact congrArg (FragmentedPackage.mk info) (SlotList.ext_get (hlength hinfo) hslots)

theorem Similar.refl (h : p.fragments.length < 2 ^ 32) : p.Similar p := ⟨h, h, Or.inr (.refl p)⟩

theorem Similar.slots (h : p.Similar q) (i : ℕ) :
    SlotList.get p.fragments i = SlotList.get q.fragments i := by
  rcases h.content with ⟨hp, hq⟩ | h
  · rw [hp.slots, hq.slots]
  · exact h.slots i

theorem Similar.fragmentInfoReceived (h : p.Similar q) :
    p.info.fragmentInfoReceived = q.info.fragmentInfoReceived := by
  rcases h.content with ⟨hp, hq⟩ | h
  · rw [hp.fragmentInfoReceived, hq.fragmentInfoReceived]
  · rw [h.info]

/-! ## Handlers on similar packages -/

theorem Similar.withInfo_eq (h : p.Similar q) (now : TimePoint) (num len : UInt32) :
    p.withInfo now num len = q.withInfo now num len := by
  have hfragments : SlotList.resize p.fragments num.toNat = SlotList.resize q.fragments num.toNat :=
    SlotList.resize_congr _ fun i _ => h.slots i
  unfold withInfo
  rw [hfragments]
  rcases h.content with ⟨hp, hq⟩ | h
  · rw [hp.info, hq.info]
  · rw [h.info]

theorem Blank.withRoom (h : p.Blank) (num : UInt32) : (p.withRoom num).Blank where
  info := h.info
  slots i := by
    rw [get_withRoom]
    exact h.slots i

theorem Similar.withRoom (h : p.Similar q) (num : UInt32) :
    (p.withRoom num).Similar (q.withRoom num) where
  left_lt := length_withRoom_lt h.left_lt num
  right_lt := length_withRoom_lt h.right_lt num
  content := by
    rcases h.content with ⟨hp, hq⟩ | hpq
    · exact Or.inl ⟨hp.withRoom num, hq.withRoom num⟩
    · refine Or.inr ⟨hpq.info, fun i => ?_, fun hinfo => ?_⟩
      · rw [get_withRoom, get_withRoom]
        exact hpq.slots i
      · have hinfo' : q.info.fragmentInfoReceived = true := hpq.info ▸ hinfo
        rw [withRoom_of_info (p := p) hinfo, withRoom_of_info hinfo']
        exact hpq.length hinfo

theorem Similar.withRoom_left (h : p.fragments.length < 2 ^ 32) (num : UInt32) :
    (p.withRoom num).Similar p where
  left_lt := length_withRoom_lt h num
  right_lt := h
  content := by
    refine Or.inr ⟨rfl, p.get_withRoom num, fun hinfo => ?_⟩
    rw [withRoom_of_info (p := p) hinfo]

theorem Similar.lt_length_withRoom_iff (h : p.Similar q) (num : UInt32) :
    num.toNat < (p.withRoom num).fragments.length ↔
      num.toNat < (q.withRoom num).fragments.length := by
  have hflag := h.fragmentInfoReceived
  rcases hinfo : p.info.fragmentInfoReceived with _ | _
  · rw [hinfo] at hflag
    by_cases hnum : num.toNat + 1 < 2 ^ 32
    · exact iff_of_true (lt_length_withRoom hinfo hnum) (lt_length_withRoom hflag.symm hnum)
    · have h₁ := length_withRoom_lt h.left_lt num
      have h₂ := length_withRoom_lt h.right_lt num
      exact iff_of_false (by omega) (by omega)
  · rw [hinfo] at hflag
    rw [withRoom_of_info hinfo, withRoom_of_info hflag.symm]
    rcases h.content with ⟨hp, -⟩ | hpq
    · rw [hp.fragmentInfoReceived] at hinfo
      cases hinfo
    · rw [hpq.length hinfo]

theorem Similar.withFragment (h : p.Similar q) (hp : num.toNat < p.fragments.length)
    (hq : num.toNat < q.fragments.length) (now : TimePoint) (view : OwningBuffer) :
    (p.withFragment now num view).Alike (q.withFragment now num view) where
  info := by
    unfold FragmentedPackage.withFragment
    rcases h.content with ⟨hp, hq⟩ | hpq
    · simp only
      rw [hp.info, hq.info]
    · simp only
      rw [hpq.info]
  slots i := by
    unfold FragmentedPackage.withFragment
    simp only
    rw [SlotList.get_set _ hp, SlotList.get_set _ hq, h.slots]
  length hinfo := by
    rw [length_withFragment, length_withFragment]
    rcases h.content with ⟨hp, -⟩ | hpq
    · have hfalse := hp.fragmentInfoReceived
      rw [show p.info.fragmentInfoReceived = true from hinfo] at hfalse
      cases hfalse
    · exact hpq.length hinfo

end FragmentedPackage

namespace Entry

open FragmentedPackage

variable {entry entry' : Entry} {p q : FragmentedPackage} {now t : TimePoint} {num : UInt32}

/-- The entries cannot be told apart: both hold no content, or packages with the same content. -/
inductive Indistinct : Entry → Entry → Prop
  | blank {entry entry' : Entry} (h : entry.package.Similar entry'.package)
      (hleft : entry.package.Blank) (hright : entry'.package.Blank) : Indistinct entry entry'
  | alike {p q : FragmentedPackage} (h : p.Similar q) (halike : p.Alike q) :
      Indistinct (some p) (some q)

theorem Indistinct.similar (h : Indistinct entry entry') :
    entry.package.Similar entry'.package := by
  cases h with
  | blank h _ _ => exact h
  | alike h _ => exact h

theorem indistinct_of_similar (h : p.Similar q) : Indistinct (some p) (some q) := by
  rcases h.content with ⟨hp, hq⟩ | hpq
  · exact .blank h hp hq
  · exact .alike h hpq

theorem Indistinct.refl (h : entry.package.fragments.length < 2 ^ 32) : Indistinct entry entry := by
  cases entry with
  | none => exact .blank (.refl h) blank_default blank_default
  | some p => exact .alike (.refl h) (.refl p)

/-- The entry that a rejected datagram leaves is indistinct from the old one. -/
theorem indistinct_rejected (h : entry.package.fragments.length < 2 ^ 32) (a : Arrival) :
    Indistinct (entry.rejected a) entry := by
  cases a with
  | info num len => exact .refl h
  | fragment num view =>
    have hsimilar := Similar.withRoom_left h num
    cases entry with
    | none => exact .blank hsimilar (blank_default.withRoom num) blank_default
    | some p => exact indistinct_of_similar hsimilar

/-! ## Steps -/

theorem length_lt_of_finish {o : Outcome} (h : p.fragments.length < 2 ^ 32)
    (hfinish : finish p = .ok (entry, o)) : entry.package.fragments.length < 2 ^ 32 := by
  unfold finish at hfinish
  split_ifs at hfinish <;> cases hfinish
  · exact counted_default.length_lt
  · exact counted_default.length_lt
  · exact h

theorem finish_agree (h : p.Similar q) (halike : p.Alike q) :
    Machine.Agree Indistinct (finish p) (finish q) := by
  rcases hinfo : p.info.fragmentInfoReceived with _ | _
  · have hp : finish p = .ok (some p, ⟨none, .ok⟩) := if_neg (by simp [hinfo])
    have hq : finish q = .ok (some q, ⟨none, .ok⟩) := if_neg (by simp [← halike.info, hinfo])
    rw [hp, hq]
    exact .ok _ (.alike h halike)
  · obtain rfl := halike.eq hinfo
    rcases hf : finish p with e | ⟨entry, o⟩
    · exact .error e
    · exact .ok o (.refl (length_lt_of_finish h.left_lt hf))

theorem store_agree (h : p.Similar q)
    (hrange : num.toNat < p.fragments.length ↔ num.toNat < q.fragments.length)
    (view : Option OwningBuffer) :
    Machine.Agree Indistinct (store now p num view) (store now q num view) := by
  unfold store
  by_cases hp : num.toNat < p.fragments.length
  · have hq := hrange.mp hp
    rw [if_neg ((ge_length_iff h.left_lt).not.mpr (Nat.not_le.mpr hp)),
      if_neg ((ge_length_iff h.right_lt).not.mpr (Nat.not_le.mpr hq)), h.slots]
    split_ifs
    · exact .ok _ (indistinct_of_similar h)
    · cases view with
      | none => exact .ok _ (indistinct_of_similar h)
      | some view =>
        have halike := h.withFragment hp hq now view
        refine finish_agree ⟨?_, ?_, Or.inr halike⟩ halike
        · rw [length_withFragment]
          exact h.left_lt
        · rw [length_withFragment]
          exact h.right_lt
  · rw [if_pos ((ge_length_iff h.left_lt).mpr (Nat.not_lt.mp hp)),
      if_pos ((ge_length_iff h.right_lt).mpr (Nat.not_lt.mp (hrange.not.mp hp)))]
    exact .ok _ (indistinct_of_similar h)

/-- Handlers on indistinct entries return the same and leave indistinct entries. -/
theorem step_agree (h : Indistinct entry entry') (now : TimePoint) (a : Arrival) :
    Machine.Agree Indistinct (step now entry a) (step now entry' a) := by
  have hsimilar := h.similar
  cases a with
  | info num len =>
    unfold step
    simp only
    rw [← hsimilar.fragmentInfoReceived, ← hsimilar.withInfo_eq]
    split_ifs
    · exact .ok _ h
    · have hlt : (entry.package.withInfo now num len).fragments.length < 2 ^ 32 := by
        rw [length_withInfo]
        exact num.toNat_lt
      exact finish_agree (.refl hlt) (.refl _)
  | fragment num view =>
    exact store_agree (hsimilar.withRoom num) (hsimilar.lt_length_withRoom_iff num) view

theorem package_prune (t : TimePoint) (entry : Entry) :
    (entry.prune t).package = entry.package ∨ (entry.prune t).package = {} := by
  rcases h : entry.prune t with _ | p
  · exact Or.inr rfl
  · left
    rw [(prune_eq_some.mp h).1]

theorem length_lt_prune (h : entry.package.fragments.length < 2 ^ 32) (t : TimePoint) :
    (entry.prune t).package.fragments.length < 2 ^ 32 := by
  rcases package_prune t entry with hp | hp
  · rw [hp]
    exact h
  · rw [hp]
    exact counted_default.length_lt

theorem blank_prune (h : entry.package.Blank) (t : TimePoint) : (entry.prune t).package.Blank := by
  rcases package_prune t entry with hp | hp
  · rw [hp]
    exact h
  · rw [hp]
    exact blank_default

theorem Indistinct.prune (h : Indistinct entry entry') (t : TimePoint) :
    Indistinct (entry.prune t) (entry'.prune t) := by
  cases h with
  | blank h hleft hright =>
    have hleft' := blank_prune hleft t
    have hright' := blank_prune hright t
    exact .blank ⟨length_lt_prune h.left_lt t, length_lt_prune h.right_lt t,
      Or.inl ⟨hleft', hright'⟩⟩ hleft' hright'
  | @alike p q h halike =>
    unfold Entry.prune
    rw [Option.filter_some, Option.filter_some, ← halike.info]
    split_ifs
    · exact .alike h halike
    · exact .refl counted_default.length_lt

theorem prune_prune {limit : TimePoint} (h : t ≤ limit) (entry : Entry) :
    (entry.prune t).prune limit = entry.prune limit := by
  unfold Entry.prune
  rw [Option.filter_filter]
  congr 1
  funext p
  by_cases hp : p.info.lastAccess < limit
  · simp [hp]
  · have ht : ¬ p.info.lastAccess < t := fun hlt => hp (lt_of_lt_of_le hlt h)
    simp [hp, ht]

end Entry

namespace Socket

variable {E : Type} [LinearOrder E] {host : ByteOrder} {settings : SocketSettings}
  {packages packages' : Reassembly E} {t : TimePoint}

/-- The maps cannot be told apart once the packages last accessed before `t` are gone. -/
def Indistinct (t : TimePoint) (packages packages' : Reassembly E) : Prop :=
  ∀ key : FragmentedPackageKey E,
    Entry.Indistinct (Entry.prune t packages[key]?) (Entry.prune t packages'[key]?)

/-- Every fragment list is shorter than 2 ^ 32. -/
def Bounded (packages : Reassembly E) : Prop :=
  ∀ key : FragmentedPackageKey E, (Entry.package packages[key]?).fragments.length < 2 ^ 32

theorem bounded_empty : Bounded (∅ : Reassembly E) := by
  intro key
  rw [Std.ExtTreeMap.getElem?_empty]
  exact FragmentedPackage.counted_default.length_lt

theorem Indistinct.pruned (h : Indistinct t packages packages') {limit : TimePoint}
    (hlimit : t ≤ limit) (key : FragmentedPackageKey E) :
    Entry.Indistinct (Entry.prune limit packages[key]?) (Entry.prune limit packages'[key]?) := by
  have hprune := (h key).prune limit
  rwa [Entry.prune_prune hlimit, Entry.prune_prune hlimit] at hprune

theorem step_agree (h : Indistinct t packages packages') {r : Receipt E}
    (hlimit : t ≤ limit settings r) :
    Machine.Agree (Indistinct t) (step host settings packages r)
      (step host settings packages' r) := by
  have hpruned := h.pruned hlimit
  rcases harr : arrivalOf host settings r.buffer with _ | ⟨id, a⟩
  · rw [step_of_arrivalOf_none host packages harr, step_of_arrivalOf_none host packages' harr]
    refine .ok _ fun key => ?_
    rw [getElem?_removeOldPackages, getElem?_removeOldPackages]
    exact (hpruned key).prune t
  · rw [step_of_arrivalOf host packages harr, step_of_arrivalOf host packages' harr]
    refine (Entry.step_agree (hpruned ⟨r.senderEndpoint, id⟩) r.env.now a).map ?_
    intro entry entry' hentry key
    rw [getElem?_put, getElem?_put]
    split_ifs
    · exact hentry.prune t
    · rw [getElem?_removeOldPackages, getElem?_removeOldPackages]
      exact (hpruned key).prune t

theorem length_lt_of_step {entry entry' : Entry} {now : TimePoint} {a : Arrival} {o : Outcome}
    (h : entry.package.fragments.length < 2 ^ 32)
    (hstep : Entry.step now entry a = .ok (entry', o)) :
    entry'.package.fragments.length < 2 ^ 32 := by
  have hagree := Entry.step_agree (.refl h) now a
  rw [hstep] at hagree
  cases hagree with
  | ok _ hentry => exact hentry.similar.left_lt

theorem bounded_step {r : Receipt E} {o : Outcome} (h : Bounded packages)
    (hstep : step host settings packages r = .ok (packages', o)) : Bounded packages' := by
  intro key
  have hpruned := Entry.length_lt_prune (h key) (limit settings r)
  rw [← getElem?_removeOldPackages] at hpruned
  rcases harr : arrivalOf host settings r.buffer with _ | ⟨id, a⟩
  · rw [step_of_arrivalOf_none host packages harr] at hstep
    cases hstep
    exact hpruned
  · rw [step_of_arrivalOf host packages harr] at hstep
    obtain ⟨x, hx, hxo⟩ := Machine.map_eq_ok.mp hstep
    cases hxo
    rw [getElem?_put]
    split_ifs
    · exact length_lt_of_step (Entry.length_lt_prune (h _) _) hx
    · exact hpruned

/-- A rejected datagram leaves a map that is indistinct from the old one. -/
theorem indistinct_of_rejection {r : Receipt E} {o : Outcome} (h : Bounded packages)
    (hstep : step host settings packages r = .ok (packages', o)) (hcode : Rejection o.errorCode) :
    Indistinct (limit settings r) packages' packages := by
  intro key
  have hpruned := Entry.length_lt_prune (h key) (limit settings r)
  have hself : Entry.Indistinct
      (Entry.prune (limit settings r) (Entry.prune (limit settings r) packages[key]?))
      (Entry.prune (limit settings r) packages[key]?) := by
    rw [Entry.prune_prune (le_refl _)]
    exact .refl hpruned
  rcases harr : arrivalOf host settings r.buffer with _ | ⟨id, a⟩
  · rw [step_of_arrivalOf_none host packages harr] at hstep
    cases hstep
    rw [getElem?_removeOldPackages]
    exact hself
  · rw [step_of_arrivalOf host packages harr] at hstep
    obtain ⟨x, hx, hxo⟩ := Machine.map_eq_ok.mp hstep
    cases hxo
    rw [getElem?_put]
    split_ifs with hkey
    · subst hkey
      have hindistinct := (Entry.indistinct_rejected hpruned a).prune (limit settings r)
      rw [Entry.prune_prune (le_refl _)] at hindistinct
      rwa [Entry.eq_rejected_of_step hx hcode]
    · rw [getElem?_removeOldPackages]
      exact hself

/-- Rejected datagrams are inert. In a run with a clock that does not go back, deleting a step that
rejects its datagram changes nothing of what later steps return. -/
theorem rejected_inert (host : ByteOrder) (settings : SocketSettings)
    {before after : List (Receipt E)} {r : Receipt E} {o : Outcome}
    (hclock : ((before ++ r :: after).map Receipt.pruneNow).Pairwise (· ≤ ·))
    (ho : (Machine.run (step host settings) ∅ (before ++ r :: after)).1[before.length]? = some o)
    (hcode : Rejection o.errorCode) :
    (Machine.run (step host settings) ∅ (before ++ after)).1 =
        (Machine.run (step host settings) ∅ (before ++ r :: after)).1.eraseIdx before.length ∧
      ∀ fault, (Machine.run (step host settings) ∅ (before ++ after)).2 = .error fault ↔
        (Machine.run (step host settings) ∅ (before ++ r :: after)).2 = .error fault := by
  obtain ⟨packages, packages', hbefore, hstep⟩ := Machine.exists_step_of_getElem?_run ho
  have hbounded : Bounded packages :=
    Machine.invariant_of_run (fun _ _ _ _ h hs => bounded_step h hs) bounded_empty hbefore
  have hlimits : ∀ r' ∈ after, limit settings r ≤ limit settings r' := by
    intro r' hr'
    rw [List.map_append, List.map_cons, List.pairwise_append, List.pairwise_cons] at hclock
    exact Int.sub_le_sub_right (hclock.2.1.1 _ (List.mem_map_of_mem hr')) _
  exact Machine.run_delete hbefore hstep (indistinct_of_rejection hbounded hstep hcode)
    fun _ _ r' hr' h => step_agree h (hlimits r' hr')

/-- A receipt of a fragmentation info for an empty message of sender 0. -/
def emptyInfoReceipt (pruneNow : TimePoint) (num : UInt32) : Receipt ℕ where
  pruneNow := pruneNow
  env := ⟨pruneNow, .empty, fun _ => 0⟩
  buffer := .ofBytes (wireHeader Header.zero.magic .fragmentedMessageInfo 7 num 0)
  senderEndpoint := 0
  error := ⟨.genericError, ""⟩

theorem second_info_inert :
    (Machine.run (step .littleEndian ⟨Header.zero.magic, 5⟩) ∅
          ([emptyInfoReceipt 1 2] ++ [emptyInfoReceipt 3 0])).1 =
        (Machine.run (step .littleEndian ⟨Header.zero.magic, 5⟩) ∅
          ([emptyInfoReceipt 1 2] ++ emptyInfoReceipt 2 2 :: [emptyInfoReceipt 3 0])).1.eraseIdx 1 ∧
      ∀ fault, (Machine.run (step .littleEndian ⟨Header.zero.magic, 5⟩) ∅
          ([emptyInfoReceipt 1 2] ++ [emptyInfoReceipt 3 0])).2 = .error fault ↔
        (Machine.run (step .littleEndian ⟨Header.zero.magic, 5⟩) ∅
          ([emptyInfoReceipt 1 2] ++ emptyInfoReceipt 2 2 :: [emptyInfoReceipt 3 0])).2 =
            .error fault :=
  rejected_inert .littleEndian ⟨Header.zero.magic, 5⟩ (by decide) rfl (Or.inr (Or.inl rfl))

end Socket

end Ecaludp
