import Ecaludp.Socket.Inert

/-!
# How many packages a socket keeps

Every package of a socket was last accessed by a datagram of its key, or made by a rejected
fragment, which leaves the time of last access at the epoch of the clock (`Touched`). As old
packages are removed before a datagram is handled, there are afterwards no more than datagrams that
were received recently enough (`retained_le`).
-/

namespace Ecaludp

open Reassembly EntryMap

namespace Socket

variable {E : Type} [LinearOrder E] {host : ByteOrder} {settings : SocketSettings}
  {received : List (Receipt E)} {packages packages' : Reassembly E} {r : Receipt E}

/-- The key of an info or fragment that reaches the reassembly. -/
def keyOf (host : ByteOrder) (settings : SocketSettings) (r : Receipt E) :
    Option (FragmentedPackageKey E) :=
  (arrivalOf host settings r.buffer).map fun x => ⟨r.senderEndpoint, x.1⟩

/-- Every package was accessed by a datagram of its key, at the time of its last access or when it
was made. -/
def Touched (host : ByteOrder) (settings : SocketSettings) (received : List (Receipt E))
    (packages : Reassembly E) : Prop :=
  ∀ (key : FragmentedPackageKey E) p, packages[key]? = some p → ∃ r ∈ received,
    keyOf host settings r = some key ∧ (p.info.lastAccess = r.env.now ∨ p.info.lastAccess = 0)

theorem touched_empty : Touched host settings [] (∅ : Reassembly E) := by
  intro key p h
  rw [Std.ExtTreeMap.getElem?_empty] at h
  cases h

/-- The entry that a step leaves was last accessed by that step, or before it, or never. -/
theorem lastAccess_step {now : TimePoint} {entry : Entry} {a : Arrival}
    {p : FragmentedPackage} {o : Outcome} (h : Entry.step now entry a = .ok (some p, o)) :
    p.info.lastAccess = now ∨ p.info.lastAccess = 0 ∨
      ∃ q, entry = some q ∧ p.info.lastAccess = q.info.lastAccess := by
  rcases hchecked : Entry.checked now entry a with _ | q
  · obtain ⟨code, -, hrejected⟩ := Entry.step_of_not_checked hchecked
    rw [hrejected, Except.ok.injEq, Prod.mk.injEq] at h
    cases a with
    | info num len => exact Or.inr (Or.inr ⟨p, h.1, rfl⟩)
    | fragment num view =>
      have hp : entry.package.withRoom num = p := Option.some.inj h.1
      cases entry with
      | none => exact Or.inr (Or.inl (by rw [← hp]; rfl))
      | some q => exact Or.inr (Or.inr ⟨q, rfl, by rw [← hp]; rfl⟩)
  · rw [Entry.step_of_checked hchecked] at h
    rw [Entry.eq_some_of_finish h]
    exact Or.inl (Entry.lastAccess_of_checked hchecked)

theorem Touched.step {o : Outcome} (h : Touched host settings received packages)
    (hstep : step host settings packages r = .ok (packages', o)) :
    Touched host settings (received ++ [r]) packages' := by
  have hpruned : ∀ (key : FragmentedPackageKey E) p,
      Entry.prune (limit settings r) packages[key]? = some p →
      ∃ r' ∈ received ++ [r], keyOf host settings r' = some key ∧
        (p.info.lastAccess = r'.env.now ∨ p.info.lastAccess = 0) := by
    intro key p hp
    obtain ⟨r', hr', hkey, haccess⟩ := h key p (Entry.prune_eq_some.mp hp).1
    exact ⟨r', List.mem_append_left _ hr', hkey, haccess⟩
  rcases harr : arrivalOf host settings r.buffer with _ | ⟨id, a⟩
  · rw [step_of_arrivalOf_none host packages harr] at hstep
    cases hstep
    intro key p hp
    rw [getElem?_removeOldPackages] at hp
    exact hpruned key p hp
  · rw [step_of_arrivalOf host packages harr] at hstep
    obtain ⟨⟨entry, o'⟩, hentry, heq⟩ := Machine.map_eq_ok.mp hstep
    cases heq
    intro key p hp
    rw [getElem?_put, getElem?_removeOldPackages] at hp
    split_ifs at hp with hkey
    · subst hkey
      have hr : keyOf host settings r = some ⟨r.senderEndpoint, id⟩ := by
        rw [keyOf, harr]
        rfl
      cases hp
      rcases lastAccess_step hentry with hnow | hzero | ⟨q, hq, haccess⟩
      · exact ⟨r, by simp, hr, Or.inl hnow⟩
      · exact ⟨r, by simp, hr, Or.inr hzero⟩
      · rw [haccess]
        exact hpruned _ q hq
    · exact hpruned key p hp

theorem Touched.run {rs : List (Receipt E)} (h : Touched host settings received packages)
    (hrun : (Machine.run (Socket.step host settings) packages rs).2 = .ok packages') :
    Touched host settings (received ++ rs) packages' := by
  induction rs generalizing received packages with
  | nil =>
    cases hrun
    rwa [List.append_nil]
  | cons r rs ih =>
    rcases hstep : Socket.step host settings packages r with f | ⟨packages₁, o⟩
    · rw [Machine.run_cons_error hstep] at hrun
      cases hrun
    · rw [Machine.run_cons_ok hstep] at hrun
      have hnext := ih (h.step hstep) hrun
      rwa [List.append_assoc] at hnext

/-- A package of another key survived the removal of old packages. -/
theorem getElem?_of_step {o : Outcome} {key : FragmentedPackageKey E}
    (hkey : keyOf host settings r ≠ some key)
    (hstep : step host settings packages r = .ok (packages', o)) :
    packages'[key]? = Entry.prune (limit settings r) packages[key]? := by
  rcases harr : arrivalOf host settings r.buffer with _ | ⟨id, a⟩
  · rw [step_of_arrivalOf_none host packages harr] at hstep
    cases hstep
    rw [getElem?_removeOldPackages]
  · rw [step_of_arrivalOf host packages harr] at hstep
    obtain ⟨x, -, heq⟩ := Machine.map_eq_ok.mp hstep
    cases heq
    rw [keyOf, harr] at hkey
    rw [getElem?_put_of_ne _ (fun heq => hkey (congrArg some heq)), getElem?_removeOldPackages]

/-- Nothing is kept for long. After a datagram was handled, a socket has at most one package more
than datagrams were received whose time is not older than the maximum age, where a package that a
rejected fragment made has the epoch of the clock as its time. -/
theorem retained_le (host : ByteOrder) (settings : SocketSettings)
    {rs : List (Receipt E)} {r : Receipt E}
    {packages : Reassembly E}
    (hrun : (Machine.run (step host settings) ∅ (rs ++ [r])).2 = .ok packages) :
    packages.size ≤ rs.countP (fun r' => limit settings r ≤ max r'.env.now 0) + 1 := by
  obtain ⟨packages₀, o, hbefore, hstep⟩ := Machine.exists_step_of_run_concat hrun
  have htouched := touched_empty.run hbefore
  rw [List.nil_append] at htouched
  have hsubset : packages.keys ⊆ (keyOf host settings r).toList ++
      (rs.filter fun r' => limit settings r ≤ max r'.env.now 0).filterMap
        (keyOf host settings) := by
    intro key hkey
    rw [Std.ExtTreeMap.mem_keys, Std.ExtTreeMap.mem_iff_isSome_getElem?,
      Option.isSome_iff_exists] at hkey
    obtain ⟨p, hp⟩ := hkey
    by_cases hr : keyOf host settings r = some key
    · exact List.mem_append_left _ (Option.mem_toList.mpr hr)
    · rw [getElem?_of_step hr hstep, Entry.prune_eq_some] at hp
      obtain ⟨r', hr', hkey', haccess⟩ := htouched key p hp.1
      refine List.mem_append_right _
        (List.mem_filterMap.mpr ⟨r', List.mem_filter.mpr ⟨hr', ?_⟩, hkey'⟩)
      rw [decide_eq_true_eq, le_max_iff]
      rcases haccess with haccess | haccess <;> rw [← haccess]
      · exact Or.inl hp.2
      · exact Or.inr hp.2
  calc packages.size = packages.keys.length := Std.ExtTreeMap.length_keys.symm
    _ ≤ _ := (Std.ExtTreeMap.nodup_keys.subperm hsubset).length_le
    _ ≤ 1 + (rs.filter fun r' => limit settings r ≤ max r'.env.now 0).length := by
      rw [List.length_append]
      refine Nat.add_le_add ?_ (List.length_filterMap_le _ _)
      cases keyOf host settings r <;> simp
    _ = _ := by rw [← List.countP_eq_length_filter, Nat.add_comm]

theorem retained_le_emptyInfo :
    ∃ packages, (Machine.run (step .littleEndian ⟨Header.zero.magic, 5⟩) ∅
        ([emptyInfoReceipt 1 2] ++ [emptyInfoReceipt 9 2])).2 = .ok packages ∧
        packages.size ≤ 1 := by
  have hok : (Machine.run (step .littleEndian ⟨Header.zero.magic, 5⟩) ∅
      ([emptyInfoReceipt 1 2] ++ [emptyInfoReceipt 9 2])).2.toBool = true := by
    decide +kernel
  rcases hrun : (Machine.run (step .littleEndian ⟨Header.zero.magic, 5⟩) ∅
      ([emptyInfoReceipt 1 2] ++ [emptyInfoReceipt 9 2])).2 with f | packages
  · rw [hrun] at hok
    cases hok
  · exact ⟨packages, rfl, retained_le .littleEndian ⟨Header.zero.magic, 5⟩ hrun⟩

end Socket

end Ecaludp
