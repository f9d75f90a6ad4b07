import Ecaludp.Reassembly
import Ecaludp.Lib.EntryMap

/-!
# One entry of the package map

Every handler reads and writes the entry of one key. `arrivalOf` is the datagram as its handler
reads it, `Entry.step` what the handler does to the entry, `Entry.prune` what
`remove_old_packages` does to it. `handleDatagram_eq_step` and `getElem?_removeOldPackages` are
the connection: the operations on the map are these steps at one key, and at every key.

The returned buffer is the concatenation of the stored fragments (`reassemblePackage_eq`); neither
the memory of the pooled buffer nor the error object passed in leaves a trace in an `Outcome`.
-/

namespace Ecaludp

open ByteOrder Reassembly EntryMap

/-- A fragmentation info or a fragment as its handler reads it; the view is missing when the
announced length exceeds the bytes available. -/
inductive Arrival where
  | info (num len : UInt32)
  | fragment (num : UInt32) (view : Option OwningBuffer)

/-- The id and the content of an info or fragment datagram. -/
def arrivalOf (host : ByteOrder) (buffer : RawMemory) : Option (Int32 × Arrival) :=
  if h : buffer.size < sizeofHeader then none
  else
    let header := Header.load host buffer.data
    let id := (host.le32toh header.id.toUInt32).toInt32
    let num := host.le32toh header.num
    let len := host.le32toh header.len
    if host.le32toh header.type = DatagramType.fragmentedMessageInfo.toUInt32 then
      some (id, .info num len)
    else if host.le32toh header.type = DatagramType.fragment.toUInt32 then
      some (id, .fragment num
        (if hlen : len > bytesAvailable buffer then none
        else some (payloadView buffer h len hlen)))
    else none

namespace FragmentedPackage

/-- The package with the info filled in. -/
def withInfo (now : TimePoint) (num len : UInt32) (p : FragmentedPackage) : FragmentedPackage where
  info :=
    { p.info with
      fragmentInfoReceived := true
      totalFragments := num
      totalSizeBytes := len
      lastAccess := now }
  fragments := SlotList.resize p.fragments num.toNat

/-- The package with room for fragment `num`, as long as the number of fragments is unknown. -/
def withRoom (num : UInt32) (p : FragmentedPackage) : FragmentedPackage where
  info := p.info
  fragments :=
    if !p.info.fragmentInfoReceived then
      SlotList.resize p.fragments (max p.fragments.length (num + 1).toNat)
    else p.fragments

/-- The package with fragment `num` stored. -/
def withFragment (now : TimePoint) (num : UInt32) (view : OwningBuffer) (p : FragmentedPackage) :
    FragmentedPackage where
  info := { p.info with receivedFragments := p.info.receivedFragments + 1, lastAccess := now }
  fragments := p.fragments.set num.toNat (some view)

end FragmentedPackage

/-- The entry of a key: its package, if there is one. -/
abbrev Entry := Option FragmentedPackage

namespace Entry

/-- The package of an entry, a default one when there is none. -/
def package (entry : Entry) : FragmentedPackage := entry.getD {}

/-- Deliver the package, drop it or leave it, as the completeness and size checks say. -/
def finish (p : FragmentedPackage) : Except Fault (Entry × Outcome) :=
  if p.info.fragmentInfoReceived = true ∧ p.info.receivedFragments = p.info.totalFragments then
    if SlotList.filled p.fragments = p.fragments.length then
      if (p.fragments.reduceOption.map OwningBuffer.size).sum = p.info.totalSizeBytes.toNat then
        .ok (none, ⟨some (p.fragments.reduceOption.flatMap OwningBuffer.bytes), .ok⟩)
      else
        .ok (none, ⟨none, .malformedReassembledMessage⟩)
    else
      .error .nullFragment
  else
    .ok (some p, ⟨none, .ok⟩)

/-- Check a fragment and store it in the package. -/
def store (now : TimePoint) (p : FragmentedPackage) (num : UInt32) (view : Option OwningBuffer) :
    Except Fault (Entry × Outcome) :=
  if num ≥ UInt32.ofNat p.fragments.length then .ok (some p, ⟨none, .malformedDatagram⟩)
  else if (SlotList.get p.fragments num.toNat).isSome then
    .ok (some p, ⟨none, .duplicateDatagram⟩)
  else
    match view with
    | none => .ok (some p, ⟨none, .malformedDatagram⟩)
    | some view => finish (p.withFragment now num view)

/-- What a handler does to the entry of its key. -/
def step (now : TimePoint) (entry : Entry) : Arrival → Except Fault (Entry × Outcome)
  | .info num len =>
    if entry.package.info.fragmentInfoReceived then .ok (entry, ⟨none, .duplicateDatagram⟩)
    else finish (entry.package.withInfo now num len)
  | .fragment num view => store now (entry.package.withRoom num) num view

/-- The package with the fragment stored, if the fragment passes the checks. -/
def stored (now : TimePoint) (p : FragmentedPackage) (num : UInt32) (view : Option OwningBuffer) :
    Option FragmentedPackage :=
  if num ≥ UInt32.ofNat p.fragments.length then none
  else if (SlotList.get p.fragments num.toNat).isSome then none
  else view.map fun view => p.withFragment now num view

/-- The package on which a handler runs the completeness check, if it gets that far. -/
def checked (now : TimePoint) (entry : Entry) : Arrival → Option FragmentedPackage
  | .info num len =>
    if entry.package.info.fragmentInfoReceived then none
    else some (entry.package.withInfo now num len)
  | .fragment num view => stored now (entry.package.withRoom num) num view

/-- The entry that a handler leaves when it rejects the datagram. -/
def rejected (entry : Entry) : Arrival → Entry
  | .info _ _ => entry
  | .fragment num _ => some (entry.package.withRoom num)

section Checked

variable {now : TimePoint} {entry : Entry} {a : Arrival} {p q : FragmentedPackage} {num : UInt32}
  {view : Option OwningBuffer}

theorem stored_eq_some (h : stored now p num view = some q) :
    num.toNat < p.fragments.length ∧ SlotList.get p.fragments num.toNat = none ∧
      ∃ v, view = some v ∧ q = p.withFragment now num v := by
  unfold stored at h
  split_ifs at h with hrange hdup
  obtain ⟨v, rfl, rfl⟩ := Option.map_eq_some_iff.mp h
  refine ⟨?_, Option.not_isSome_iff_eq_none.mp hdup, v, rfl, rfl⟩
  have hlt := UInt32.lt_iff_toNat_lt.mp (UInt32.not_le.mp hrange)
  rw [UInt32.toNat_ofNat'] at hlt
  exact lt_of_lt_of_le hlt (Nat.mod_le _ _)

theorem store_of_stored (h : stored now p num view = some q) : store now p num view = finish q := by
  unfold stored at h
  unfold store
  split_ifs at h ⊢
  obtain ⟨v, rfl, rfl⟩ := Option.map_eq_some_iff.mp h
  rfl

theorem store_of_not_stored (h : stored now p num view = none) :
    ∃ code, (code = .malformedDatagram ∨ code = .duplicateDatagram) ∧
      store now p num view = .ok (some p, ⟨none, code⟩) := by
  unfold stored at h
  unfold store
  split_ifs at h ⊢
  · exact ⟨_, Or.inl rfl, rfl⟩
  · exact ⟨_, Or.inr rfl, rfl⟩
  · rw [Option.map_eq_none_iff.mp h]
    exact ⟨_, Or.inl rfl, rfl⟩

theorem step_of_checked (h : checked now entry a = some p) : step now entry a = finish p := by
  cases a with
  | info num len =>
    simp only [checked] at h
    split_ifs at h with hinfo
    cases h
    exact if_neg hinfo
  | fragment num view => exact store_of_stored h

theorem step_of_not_checked (h : checked now entry a = none) :
    ∃ code, (code = .malformedDatagram ∨ code = .duplicateDatagram) ∧
      step now entry a = .ok (entry.rejected a, ⟨none, code⟩) := by
  cases a with
  | info num len =>
    simp only [checked] at h
    split_ifs at h with hinfo
    exact ⟨_, Or.inr rfl, if_pos hinfo⟩
  | fragment num view => exact store_of_not_stored h

end Checked

/-- What `remove_old_packages` does to an entry. -/
def prune (maxAge : TimePoint) (entry : Entry) : Entry :=
  entry.filter fun p => !decide (p.info.lastAccess < maxAge)

theorem prune_eq_some {maxAge : TimePoint} {entry : Entry} {p : FragmentedPackage} :
    entry.prune maxAge = some p ↔ entry = some p ∧ maxAge ≤ p.info.lastAccess := by
  rw [prune, Option.filter_eq_some_iff]
  simp

/-- A step with its time and its arrival as one input. -/
def handle (entry : Entry) (x : TimePoint × Arrival) : Except Fault (Entry × Option Outcome) :=
  (step x.1 entry x.2).map fun r => (r.1, some r.2)

theorem handle_of_step {entry entry' : Entry} {o : Outcome} {x : TimePoint × Arrival}
    (h : step x.1 entry x.2 = .ok (entry', o)) : handle entry x = .ok (entry', some o) := by
  rw [handle, h]
  rfl

end Entry

/-- The messages among the outcomes of a run. -/
def messagesOf (outcomes : List (Option Outcome)) : List (List UInt8) :=
  outcomes.filterMap fun o => o.bind Outcome.message

theorem messagesOf_cons (o : Outcome) (os : List (Option Outcome)) :
    messagesOf (some o :: os) = o.message.toList ++ messagesOf os := by
  unfold messagesOf
  rcases h : o.message with _ | bytes
  · rw [List.filterMap_cons_none (by exact h)]
    rfl
  · rw [List.filterMap_cons_some (by exact h)]
    rfl

theorem messagesOf_cons_none {o : Outcome} (h : o.message = none) (os : List (Option Outcome)) :
    messagesOf (some o :: os) = messagesOf os := by
  unfold messagesOf
  rw [List.filterMap_cons_none]
  exact h

/-! ## The loops over the fragments -/

section Loops

variable {l : List (Option OwningBuffer)}

theorem foldlM_deref {β : Type} (f : β → OwningBuffer → Except Fault β) (vs : List OwningBuffer)
    (b : β) :
    (vs.map some).foldlM (fun b fragment => derefFragment fragment >>= f b) b = vs.foldlM f b := by
  rw [List.foldlM_map]
  rfl

theorem foldlM_sizes (vs : List OwningBuffer) : ∀ total : ℕ,
    vs.foldlM (fun total v => (pure (total + v.size) : Except Fault ℕ)) total =
      .ok (total + (vs.map OwningBuffer.size).sum) := by
  induction vs with
  | nil => intro total; rfl
  | cons v vs ih =>
    intro total
    rw [List.foldlM_cons, pure_bind, ih, List.map_cons, List.sum_cons, Nat.add_assoc]

theorem cummulatedPackageSizes_of_filled (h : SlotList.filled l = l.length) :
    cummulatedPackageSizes l = .ok (l.reduceOption.map OwningBuffer.size).sum := by
  unfold cummulatedPackageSizes
  conv_lhs => rw [SlotList.eq_map_some_of_filled h]
  rw [foldlM_deref (fun total v => pure (total + v.size)), foldlM_sizes, Nat.zero_add]

/-- The size loop runs into the first empty slot. -/
theorem cummulatedPackageSizes_of_not_filled (h : SlotList.filled l ≠ l.length) :
    cummulatedPackageSizes l = .error .nullFragment := by
  unfold cummulatedPackageSizes
  generalize 0 = total
  induction l generalizing total with
  | nil => exact absurd rfl h
  | cons fragment l ih =>
    rw [List.foldlM_cons]
    cases fragment with
    | none => rfl
    | some fragment =>
      refine ih (fun hl => h ?_) _
      rw [SlotList.filled_cons, hl, List.length_cons]
      simp [Nat.add_comm]

theorem write_append {m : RawMemory} {pos : ℕ} {v : List UInt8} (hpos : pos + v.length ≤ m.size)
    (rest : List UInt8) (n : ℕ) :
    (m.data.take pos ++ (v ++ m.data.drop (pos + v.length))).take (pos + v.length) ++
        (rest ++ (m.data.take pos ++ (v ++ m.data.drop (pos + v.length))).drop
          (pos + v.length + n)) =
      m.data.take pos ++ ((v ++ rest) ++ m.data.drop (pos + v.length + n)) := by
  have hlen : (m.data.take pos ++ v).length = pos + v.length := by
    have := m.size_le
    rw [List.length_append, List.length_take]
    omega
  rw [← List.append_assoc (m.data.take pos) v, List.take_left' hlen, ← hlen,
    List.drop_length_add_append, hlen, List.drop_drop]
  simp only [List.append_assoc]

/-- The copy loop writes the fragments one after the other from `pos` on, and nothing else. -/
theorem foldlM_copy (vs : List OwningBuffer) : ∀ (m : RawMemory) (pos : ℕ),
    pos + (vs.map OwningBuffer.size).sum ≤ m.size →
    ∃ m', (vs.map some).foldlM copyFragment (m, pos) =
        .ok (m', pos + (vs.map OwningBuffer.size).sum) ∧ m'.size = m.size ∧
      m'.data = m.data.take pos ++
        (vs.flatMap OwningBuffer.bytes ++ m.data.drop (pos + (vs.map OwningBuffer.size).sum)) := by
  induction vs with
  | nil =>
    intro m pos _
    exact ⟨m, rfl, rfl, by simp⟩
  | cons v vs ih =>
    intro m pos hpos
    rw [List.map_cons, List.sum_cons] at hpos
    have hv : pos + v.bytes.length ≤ m.size := by
      rw [OwningBuffer.length_bytes]
      omega
    obtain ⟨m₁, hwrite, hsize₁, hdata₁⟩ := RawMemory.write_eq_ok hv
    obtain ⟨m', hfold, hsize, hdata⟩ := ih m₁ (pos + v.size) (by omega)
    refine ⟨m', ?_, by omega, ?_⟩
    · have hstep : copyFragment (m, pos) (some v) = .ok (m₁, pos + v.size) := by
        unfold copyFragment
        show (m.write pos v.bytes >>= fun memory => pure (memory, pos + v.size)) = _
        rw [hwrite]
        rfl
      rw [List.map_cons, List.foldlM_cons, hstep, List.map_cons, List.sum_cons, ← Nat.add_assoc]
      exact hfold
    · have happend := write_append hv (vs.flatMap OwningBuffer.bytes) (vs.map OwningBuffer.size).sum
      rw [← hdata₁, OwningBuffer.length_bytes] at happend
      rw [hdata, happend, List.map_cons, List.sum_cons, List.flatMap_cons, Nat.add_assoc]

end Loops

/-- A complete package is copied fragment by fragment; the pooled buffer leaves no trace. -/
theorem reassemblePackage_eq (env : Env) {p : FragmentedPackage}
    (hfilled : SlotList.filled p.fragments = p.fragments.length)
    (hsize : (p.fragments.reduceOption.map OwningBuffer.size).sum = p.info.totalSizeBytes.toNat) :
    ∃ b, reassemblePackage env p = .ok b ∧
      b.bytes = p.fragments.reduceOption.flatMap OwningBuffer.bytes := by
  obtain ⟨m', hfold, hm', hdata⟩ := foldlM_copy p.fragments.reduceOption
    (env.pooled.resize p.info.totalSizeBytes.toNat env.fresh) 0
    (by rw [Nat.zero_add, hsize, RawMemory.size_resize])
  refine ⟨OwningBuffer.ofRawMemory m', ?_, ?_⟩
  · unfold reassemblePackage
    conv_lhs => rw [SlotList.eq_map_some_of_filled hfilled]
    show (List.foldlM copyFragment _ _ >>=
      fun copied => pure (OwningBuffer.ofRawMemory copied.1)) = _
    rw [hfold]
    rfl
  · have hlen : (p.fragments.reduceOption.flatMap OwningBuffer.bytes).length = m'.size := by
      rw [hm', RawMemory.size_resize, ← hsize, List.length_flatMap]
      simp
    rw [OwningBuffer.bytes_ofRawMemory, RawMemory.bytes, hdata, List.take_zero, List.nil_append,
      List.take_left' hlen]

/-! ## The operations on the map are steps on entries -/

section Connect

variable {E : Type} [LinearOrder E]

/-- A step on the entry of `key`, seen on the map. -/
def atKey (packages : Reassembly E) (key : FragmentedPackageKey E)
    (r : Except Fault (Entry × Outcome)) : Except Fault (Reassembly E × Outcome) :=
  r.map fun r => (put packages key r.1, r.2)

/-- A handler's result with the observable part only. -/
def observed (r : Except Fault (HandlerResult E)) : Except Fault (Reassembly E × Outcome) :=
  r.map fun r => (r.1, outcome r.2)

/-- What `handle_datagram` returns for a datagram that is neither an info nor a fragment. -/
def otherOutcome (host : ByteOrder) (buffer : RawMemory) : Outcome :=
  if h : buffer.size < sizeofHeader then ⟨none, .malformedDatagram⟩
  else
    let header := Header.load host buffer.data
    if host.le32toh header.type = DatagramType.nonFragmentedMessage.toUInt32 then
      if hlen : host.le32toh header.len > bytesAvailable buffer then ⟨none, .malformedDatagram⟩
      else ⟨some (payloadView buffer h _ hlen).bytes, .ok⟩
    else ⟨none, .malformedDatagram⟩

theorem handleFragmentedPackageIfComplete_eq_finish (env : Env) (key : FragmentedPackageKey E)
    (p : FragmentedPackage) (error : Error) (packages : Reassembly E) :
    observed (handleFragmentedPackageIfComplete env key p error (put packages key (some p))) =
      atKey packages key (Entry.finish p) := by
  unfold handleFragmentedPackageIfComplete Entry.finish
  by_cases hc : p.info.fragmentInfoReceived = true ∧ p.info.receivedFragments =
    p.info.totalFragments
  · rw [if_neg (by simp [hc.1, hc.2]), if_pos hc]
    by_cases hf : SlotList.filled p.fragments = p.fragments.length
    · rw [cummulatedPackageSizes_of_filled hf, if_pos hf]
      by_cases hs : (p.fragments.reduceOption.map OwningBuffer.size).sum =
        p.info.totalSizeBytes.toNat
      · obtain ⟨b, hb, hbytes⟩ := reassemblePackage_eq env hf hs
        rw [if_pos hs, ← hbytes]
        show observed (if _ then _ else _) = _
        rw [if_neg (not_not.mpr hs), hb]
        show Except.ok (Std.ExtTreeMap.erase _ _, _) = Except.ok (put _ _ none, _)
        rw [erase_eq_put, put_put]
        rfl
      · rw [if_neg hs]
        show observed (if _ then _ else _) = _
        rw [if_pos hs]
        show Except.ok (Std.ExtTreeMap.erase _ _, _) = Except.ok (put _ _ none, _)
        rw [erase_eq_put, put_put]
        rfl
    · rw [cummulatedPackageSizes_of_not_filled hf, if_neg hf]
      rfl
  · rw [if_pos, if_neg hc]
    · rfl
    · rw [not_and_or] at hc
      rcases hc with hc | hc
      · simp [hc]
      · simp [hc]

variable (host : ByteOrder) (env : Env) (buffer : RawMemory) (senderEndpoint : E) (error : Error)
  (packages : Reassembly E)

theorem fragmentedMessageInfo_eq_step {id : Int32} {num len : UInt32}
    (hid : (host.le32toh (Header.load host buffer.data).id.toUInt32).toInt32 = id)
    (hnum : host.le32toh (Header.load host buffer.data).num = num)
    (hlen : host.le32toh (Header.load host buffer.data).len = len) :
    observed (handleDatagramFragmentedMessageInfo host env buffer senderEndpoint error packages) =
      atKey packages ⟨senderEndpoint, id⟩
        (Entry.step env.now packages[(⟨senderEndpoint, id⟩ : FragmentedPackageKey E)]?
          (.info num len)) := by
  subst hid hnum hlen
  set key : FragmentedPackageKey E :=
    ⟨senderEndpoint, (host.le32toh (Header.load host buffer.data).id.toUInt32).toInt32⟩
  unfold handleDatagramFragmentedMessageInfo Entry.step
  by_cases h : (Entry.package packages[key]?).info.fragmentInfoReceived = true
  · refine (congrArg observed (if_pos h)).trans ?_
    simp only
    rw [if_pos h]
    show Except.ok (packages, _) = Except.ok (put packages key packages[key]?, _)
    rw [put_getElem?]
    rfl
  · refine (congrArg observed (if_neg h)).trans ?_
    simp only
    rw [if_neg h, insert_eq_put]
    exact handleFragmentedPackageIfComplete_eq_finish env key
      ((Entry.package packages[key]?).withInfo env.now _ _) error packages

theorem storeFragment_eq_step (hbuffer : ¬ buffer.size < sizeofHeader)
    (key : FragmentedPackageKey E) (p : FragmentedPackage) (num len : UInt32) :
    observed (storeFragment env buffer error (put packages key (some p)) hbuffer key p num len) =
      atKey packages key
        (Entry.store env.now p num (if h : len > bytesAvailable buffer then none
          else some (payloadView buffer hbuffer len h))) := by
  unfold storeFragment Entry.store
  by_cases hrange : num ≥ UInt32.ofNat p.fragments.length
  · rw [if_pos hrange, if_pos hrange]
    rfl
  · have hlt : num.toNat < p.fragments.length := by
      have h₁ := UInt32.lt_iff_toNat_lt.mp (UInt32.not_le.mp hrange)
      rw [UInt32.toNat_ofNat'] at h₁
      exact lt_of_lt_of_le h₁ (Nat.mod_le _ _)
    rw [if_neg hrange, if_neg hrange, SlotList.get_eq_getElem hlt, List.getElem?_eq_getElem hlt]
    rcases p.fragments[num.toNat] with _ | stored
    · rw [if_neg (by simp)]
      by_cases hsize : len > bytesAvailable buffer
      · simp only [dif_pos hsize]
        rfl
      · simp only [dif_neg hsize]
        rw [insert_eq_put, put_put]
        exact handleFragmentedPackageIfComplete_eq_finish env _ _ error packages
    · rfl

theorem fragment_eq_step (hbuffer : ¬ buffer.size < sizeofHeader) {id : Int32} {num len : UInt32}
    (hid : (host.le32toh (Header.load host buffer.data).id.toUInt32).toInt32 = id)
    (hnum : host.le32toh (Header.load host buffer.data).num = num)
    (hlen : host.le32toh (Header.load host buffer.data).len = len) :
    observed (handleDatagramFragment host env buffer senderEndpoint error packages hbuffer) =
      atKey packages ⟨senderEndpoint, id⟩
        (Entry.step env.now packages[(⟨senderEndpoint, id⟩ : FragmentedPackageKey E)]?
          (.fragment num (if h : len > bytesAvailable buffer then none
            else some (payloadView buffer hbuffer len h)))) := by
  subst hid hnum hlen
  unfold handleDatagramFragment Entry.step
  simp only [insert_eq_put]
  exact storeFragment_eq_step env buffer error packages hbuffer _
    ((Entry.package packages[_]?).withRoom _) _ _

/-- `handle_datagram` on an info or fragment datagram is a step on the entry of its key. -/
theorem handleDatagram_eq_step {id : Int32} {a : Arrival}
    (h : arrivalOf host buffer = some (id, a)) :
    observed (handleDatagram host env buffer senderEndpoint error packages) =
      atKey packages ⟨senderEndpoint, id⟩
        (Entry.step env.now packages[(⟨senderEndpoint, id⟩ : FragmentedPackageKey E)]? a) := by
  by_cases hsize : buffer.size < sizeofHeader
  · rw [arrivalOf, dif_pos hsize] at h
    cases h
  · rw [arrivalOf, dif_neg hsize] at h
    rw [handleDatagram, dif_neg hsize]
    simp only at h ⊢
    by_cases hinfo : host.le32toh (Header.load host buffer.data).type =
        DatagramType.fragmentedMessageInfo.toUInt32
    · rw [if_pos hinfo] at h ⊢
      cases h
      exact fragmentedMessageInfo_eq_step host env buffer senderEndpoint error packages rfl rfl rfl
    · rw [if_neg hinfo] at h ⊢
      by_cases hfrag : host.le32toh (Header.load host buffer.data).type =
          DatagramType.fragment.toUInt32
      · rw [if_pos hfrag] at h ⊢
        cases h
        exact fragment_eq_step host env buffer senderEndpoint error packages _ rfl rfl rfl
      · rw [if_neg hfrag] at h
        cases h

/-- Other datagrams leave the map alone, and their result does not depend on it. -/
theorem handleDatagram_of_arrivalOf_none (h : arrivalOf host buffer = none) :
    observed (handleDatagram host env buffer senderEndpoint error packages) =
      .ok (packages, otherOutcome host buffer) := by
  by_cases hsize : buffer.size < sizeofHeader
  · rw [handleDatagram, dif_pos hsize, otherOutcome, dif_pos hsize]
    rfl
  · rw [arrivalOf, dif_neg hsize] at h
    rw [handleDatagram, dif_neg hsize, otherOutcome, dif_neg hsize]
    simp only at h ⊢
    split_ifs at h ⊢ with hinfo hfrag hother hlen
    · exact congrArg observed (dif_pos hlen)
    · exact congrArg observed (dif_neg hlen)
    · rfl

theorem step_eq_observed :
    Reassembly.step host packages (.handleDatagram env buffer senderEndpoint error) =
      (observed (handleDatagram host env buffer senderEndpoint error packages)).map
        fun r => (r.1, some r.2) := by
  show Except.map _ (handleDatagram host env buffer senderEndpoint error packages) = _
  cases handleDatagram host env buffer senderEndpoint error packages <;> rfl

theorem step_of_arrivalOf {id : Int32} {a : Arrival} (h : arrivalOf host buffer = some (id, a)) :
    Reassembly.step host packages (.handleDatagram env buffer senderEndpoint error) =
      (Entry.step env.now packages[(⟨senderEndpoint, id⟩ : FragmentedPackageKey E)]? a).map
        fun r => (put packages ⟨senderEndpoint, id⟩ r.1, some r.2) := by
  rw [step_eq_observed, handleDatagram_eq_step host env buffer senderEndpoint error packages h]
  cases Entry.step env.now packages[(⟨senderEndpoint, id⟩ : FragmentedPackageKey E)]? a <;> rfl

theorem step_of_arrivalOf_none (h : arrivalOf host buffer = none) :
    Reassembly.step host packages (.handleDatagram env buffer senderEndpoint error) =
      .ok (packages, some (otherOutcome host buffer)) := by
  rw [step_eq_observed, handleDatagram_of_arrivalOf_none host env buffer senderEndpoint error
    packages h]
  rfl

theorem getElem?_removeOldPackages (maxAge : TimePoint) (key : FragmentedPackageKey E) :
    (packages.removeOldPackages maxAge)[key]? = Entry.prune maxAge packages[key]? := by
  have hloop : packages.removeOldPackages maxAge =
      eraseWhere (fun _ p => decide (p.info.lastAccess < maxAge)) packages := by
    unfold removeOldPackages eraseWhere
    simp only [decide_eq_true_eq]
  rw [hloop, getElem?_eraseWhere]
  rfl

/-! ## Runs on one key -/

/-- The call hands in an info or a fragment of `key`, which its handler reads at the given time. -/
def IsArrival (host : ByteOrder) (key : FragmentedPackageKey E) (call : Call E)
    (x : TimePoint × Arrival) : Prop :=
  ∃ env buffer error, call = .handleDatagram env buffer key.endpoint error ∧ env.now = x.1 ∧
    arrivalOf host buffer = some (key.id, x.2)

omit packages in
/-- A run of calls on one key is a run on its entry. -/
theorem run_atKey {key : FragmentedPackageKey E} {calls : List (Call E)}
    {xs : List (TimePoint × Arrival)} (h : List.Forall₂ (IsArrival host key) calls xs)
    (packages : Reassembly E) :
    Machine.run (Reassembly.step host) packages calls =
      ((Machine.run Entry.handle packages[key]? xs).1,
        (Machine.run Entry.handle packages[key]? xs).2.map (put packages key)) := by
  induction h generalizing packages with
  | nil =>
    show _ = ([], Except.ok (put packages key packages[key]?))
    rw [put_getElem?]
    rfl
  | @cons call x calls xs hcall _ ih =>
    obtain ⟨env, buffer, error, rfl, hnow, harr⟩ := hcall
    have hstep := step_of_arrivalOf host env buffer key.endpoint error packages harr
    rw [hnow] at hstep
    rcases hentry : Entry.step x.1 packages[key]? x.2 with e | ⟨entry, o⟩
    · rw [hentry] at hstep
      rw [Machine.run_cons_error hstep,
        Machine.run_cons_error (e := e) (by rw [Entry.handle, hentry]; rfl)]
      rfl
    · rw [hentry] at hstep
      rw [Machine.run_cons_ok hstep, Machine.run_cons_ok (Entry.handle_of_step hentry), ih,
        getElem?_put_self]
      have hput : put (put packages key entry) key = put packages key := by
        funext entry'
        exact put_put packages key entry entry'
      show (_, Except.map (put (put packages key entry) key) _) = _
      rw [hput]

end Connect

end Ecaludp
