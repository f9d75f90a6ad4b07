import Ecaludp.Reassembly.Package
import Ecaludp.Lib.Collect

/-!
# Messages and the parts of them received

A fragmented message is a list of chunks; its parts are one info and one fragment a chunk. The
entry of its key holds a set of parts (`Represents`), and a handler offers one more to that set:
`step_of_reads` says that the handlers are the collector of `Collect`, with the concatenation of
the chunks as the delivered message.
-/

namespace Ecaludp

open ByteOrder Reassembly

/-- A part of a fragmented message: its info or one of its chunks. -/
inductive Part where
  | info
  | chunk (i : ℕ)
  deriving DecidableEq

/-- A fragmented message, cut into chunks. -/
structure Message where
  chunks : List (List UInt8)
  count_lt : chunks.length < 2 ^ 32
  size_lt : chunks.flatten.length < 2 ^ 32

namespace Message

variable {m : Message}

/-- Chunk `i`. -/
def chunk (m : Message) (i : ℕ) : List UInt8 := m.chunks.getD i []

/-- All parts of a message. -/
def parts (m : Message) : Finset Part :=
  insert .info ((Finset.range m.chunks.length).image .chunk)

/-- The number of chunks as the info announces it. -/
def num (m : Message) : UInt32 := UInt32.ofNat m.chunks.length

/-- The size as the info announces it. -/
def len (m : Message) : UInt32 := UInt32.ofNat m.chunks.flatten.length

/-- The datagram of a part. -/
def encode (m : Message) (magic : Magic) (id : Int32) : Part → List UInt8
  | .info => wireHeader magic .fragmentedMessageInfo id m.num m.len
  | .chunk i =>
    wireHeader magic .fragment id (UInt32.ofNat i) (UInt32.ofNat (m.chunk i).length) ++ m.chunk i

theorem info_mem_parts : Part.info ∈ m.parts := Finset.mem_insert_self _ _

theorem chunk_mem_parts {i : ℕ} : Part.chunk i ∈ m.parts ↔ i < m.chunks.length := by
  simp [parts]

theorem toNat_num (m : Message) : m.num.toNat = m.chunks.length := by
  rw [num, UInt32.toNat_ofNat']
  exact Nat.mod_eq_of_lt m.count_lt

theorem toNat_len (m : Message) : m.len.toNat = m.chunks.flatten.length := by
  rw [len, UInt32.toNat_ofNat']
  exact Nat.mod_eq_of_lt m.size_lt

theorem getElem?_chunks {i : ℕ} (h : i < m.chunks.length) : m.chunks[i]? = some (m.chunk i) := by
  rw [chunk, List.getD_eq_getElem _ _ h, List.getElem?_eq_getElem h]

theorem length_chunk_lt (m : Message) (i : ℕ) : (m.chunk i).length < 2 ^ 32 := by
  by_cases hi : i < m.chunks.length
  · refine lt_of_le_of_lt ?_ m.size_lt
    rw [chunk, List.getD_eq_getElem _ _ hi]
    exact (List.sublist_flatten_of_mem (List.getElem_mem hi)).length_le
  · rw [chunk, List.getD_eq_default _ _ (Nat.not_lt.mp hi)]
    decide

/-- The parts of a message in the order in which the builder sends them. -/
def partList (m : Message) : List Part :=
  .info :: (List.range m.chunks.length).map .chunk

theorem nodup_partList (m : Message) : m.partList.Nodup := by
  refine List.nodup_cons.mpr ⟨by simp, List.Nodup.map ?_ List.nodup_range⟩
  intro i j h
  cases h
  rfl

theorem toFinset_partList (m : Message) : m.partList.toFinset = m.parts := by
  ext part
  cases part with
  | info => simp [partList, info_mem_parts]
  | chunk i => simp [partList, chunk_mem_parts]

@[simp] theorem length_partList (m : Message) : m.partList.length = m.chunks.length + 1 := by
  rw [partList, List.length_cons, List.length_map, List.length_range]

section Order

variable {m : Message} {parts : List Part}

theorem mem_iff_of_perm (hperm : parts.Perm m.partList) {part : Part} :
    part ∈ parts ↔ part ∈ m.parts := by
  rw [hperm.mem_iff, ← m.toFinset_partList, List.mem_toFinset]

theorem nodup_of_perm (hperm : parts.Perm m.partList) : parts.Nodup :=
  hperm.nodup_iff.mpr m.nodup_partList

theorem toFinset_of_perm (hperm : parts.Perm m.partList) : parts.toFinset = m.parts := by
  ext part
  rw [List.mem_toFinset, mem_iff_of_perm hperm]

end Order

/-- The arrival of a part, as its handler reads it. -/
inductive Reads (m : Message) : Part → Arrival → Prop
  | info : Reads m .info (.info m.num m.len)
  | chunk (i : ℕ) (view : OwningBuffer) (h : view.bytes = m.chunk i) :
      Reads m (.chunk i) (.fragment (UInt32.ofNat i) (some view))

theorem arrivalOf_encode (host : ByteOrder) {buffer : RawMemory} {magic : Magic} {id : Int32}
    {part : Part} (h : buffer.bytes = m.encode magic id part) :
    ∃ a, arrivalOf host buffer = some (id, a) ∧ m.Reads part a := by
  cases part with
  | info =>
    have hinfo : buffer.bytes =
        wireHeader magic .fragmentedMessageInfo id m.num m.len ++ [] := by
      rw [List.append_nil]
      exact h
    exact ⟨_, arrivalOf_wireInfo host hinfo, .info⟩
  | chunk i =>
    have hlt := m.length_chunk_lt i
    have hlen : (UInt32.ofNat (m.chunk i).length).toNat = (m.chunk i).length := by
      rw [UInt32.toNat_ofNat', Nat.mod_eq_of_lt hlt]
    obtain ⟨view, harr, hview⟩ := arrivalOf_wireFragment host h
    obtain ⟨v, rfl, -, hbytes⟩ := hview (by rw [hlen, Nat.mod_eq_of_lt hlt])
    refine ⟨_, harr, .chunk i v ?_⟩
    rw [hbytes, hlen, List.take_length]

/-! ## The parts in a package -/

/-- The package holds exactly the parts in `S`. -/
structure Holds (m : Message) (S : Finset Part) (p : FragmentedPackage) : Prop where
  counted : p.Counted
  info : p.info.fragmentInfoReceived = true ↔ Part.info ∈ S
  length : Part.info ∈ S → p.fragments.length = m.chunks.length
  size : Part.info ∈ S → p.info.totalSizeBytes.toNat = m.chunks.flatten.length
  parts : ∀ i, p.part i = if Part.chunk i ∈ S then m.chunks[i]? else none
  subset : S ⊆ m.parts

theorem holds_default (m : Message) : m.Holds ∅ {} where
  counted := FragmentedPackage.counted_default
  info := by simp
  length h := absurd h (Finset.notMem_empty _)
  size h := absurd h (Finset.notMem_empty _)
  parts i := by
    rw [if_neg (Finset.notMem_empty _)]
    rfl
  subset := Finset.empty_subset _

section Holds

variable {S : Finset Part} {p : FragmentedPackage}

theorem Holds.isSome_part (h : m.Holds S p) (i : ℕ) :
    (p.part i).isSome = true ↔ Part.chunk i ∈ S := by
  rw [h.parts]
  split_ifs with hi
  · rw [getElem?_chunks (chunk_mem_parts.mp (h.subset hi))]
    simp [hi]
  · simp [hi]

theorem Holds.complete_iff (h : m.Holds S p) : p.Complete ↔ S = m.parts := by
  unfold FragmentedPackage.Complete
  simp only [h.info, h.isSome_part]
  constructor
  · rintro ⟨hinfo, hchunks⟩
    apply Finset.Subset.antisymm h.subset
    intro part hpart
    cases part with
    | info => exact hinfo
    | chunk i =>
      apply hchunks i
      rw [h.length hinfo]
      exact chunk_mem_parts.mp hpart
  · rintro rfl
    refine ⟨info_mem_parts, fun i hi => chunk_mem_parts.mpr ?_⟩
    rwa [h.length info_mem_parts] at hi

theorem Holds.content (h : m.Holds m.parts p) : p.content = m.chunks.flatten := by
  have hget : ∀ i ∈ List.range p.fragments.length, (p.part i).getD [] = m.chunks.getD i [] := by
    intro i hi
    rw [List.mem_range, h.length info_mem_parts] at hi
    rw [h.parts, if_pos (chunk_mem_parts.mpr hi), List.getD_eq_getElem?_getD]
  have hchunks : (List.range m.chunks.length).map (fun i => m.chunks.getD i []) = m.chunks := by
    refine List.ext_getElem (by simp) fun i h₁ h₂ => ?_
    rw [List.getElem_map, List.getElem_range, List.getD_eq_getElem _ _ h₂]
  rw [FragmentedPackage.content, List.flatMap_congr hget, h.length info_mem_parts]
  conv_rhs => rw [← hchunks]
  rw [List.flatMap_def]

theorem Holds.withInfo (h : m.Holds S p) (now : TimePoint) :
    m.Holds (insert .info S) (p.withInfo now m.num m.len) := by
  have hcut : ¬ p.CutsOff m.num := by
    rw [FragmentedPackage.not_cutsOff]
    intro i hi
    rw [h.parts, List.getElem?_eq_none (by rw [← m.toNat_num]; exact hi), ite_self]
  refine ⟨h.counted.withInfo now m.len hcut, ?_, ?_, fun _ => m.toNat_len, ?_, ?_⟩
  · simp [FragmentedPackage.withInfo]
  · intro _
    rw [FragmentedPackage.length_withInfo, m.toNat_num]
  · intro i
    rw [FragmentedPackage.part_withInfo_of_not_cutsOff hcut, h.parts]
    simp
  · exact Finset.insert_subset info_mem_parts h.subset

theorem Holds.withRoom (h : m.Holds S p) (num : UInt32) : m.Holds S (p.withRoom num) where
  counted := h.counted.withRoom num
  info := h.info
  length hinfo := by
    rw [FragmentedPackage.withRoom_of_info (h.info.mpr hinfo)]
    exact h.length hinfo
  size := h.size
  parts i := by
    rw [FragmentedPackage.part_withRoom]
    exact h.parts i
  subset := h.subset

theorem toNat_ofNat_of_lt {i : ℕ} (hi : i < m.chunks.length) : (UInt32.ofNat i).toNat = i := by
  rw [UInt32.toNat_ofNat', Nat.mod_eq_of_lt (hi.trans m.count_lt)]

theorem Holds.lt_length_withRoom (h : m.Holds S p) {i : ℕ} (hi : i < m.chunks.length) :
    i < (p.withRoom (UInt32.ofNat i)).fragments.length := by
  have hnum := toNat_ofNat_of_lt hi
  rcases hinfo : p.info.fragmentInfoReceived with _ | _
  · have hroom : (UInt32.ofNat i).toNat + 1 < 2 ^ 32 := by
      have := m.count_lt
      omega
    have := FragmentedPackage.lt_length_withRoom hinfo hroom
    rwa [hnum] at this
  · rw [FragmentedPackage.withRoom_of_info hinfo, h.length (h.info.mp hinfo)]
    exact hi

theorem Holds.withFragment (h : m.Holds S p) {i : ℕ} (hi : i < p.fragments.length)
    (hchunk : i < m.chunks.length) (hnew : Part.chunk i ∉ S) (now : TimePoint)
    {view : OwningBuffer} (hview : view.bytes = m.chunk i) :
    m.Holds (insert (.chunk i) S) (p.withFragment now (UInt32.ofNat i) view) := by
  have hnum := toNat_ofNat_of_lt hchunk
  have hempty : SlotList.get p.fragments (UInt32.ofNat i).toNat = none := by
    rw [hnum, ← FragmentedPackage.part_eq_none, h.parts, if_neg hnew]
  have hlt : (UInt32.ofNat i).toNat < p.fragments.length := by rwa [hnum]
  refine ⟨h.counted.withFragment hlt hempty now view, ?_, ?_, ?_, ?_, ?_⟩
  · rw [Finset.mem_insert, or_iff_right (by simp), ← h.info]
    rfl
  · intro hinfo
    rw [FragmentedPackage.length_withFragment]
    exact h.length (Finset.mem_of_mem_insert_of_ne hinfo (by simp))
  · intro hinfo
    exact h.size (Finset.mem_of_mem_insert_of_ne hinfo (by simp))
  · intro j
    rw [FragmentedPackage.part_withFragment hlt, hnum, h.parts]
    by_cases hj : j = i
    · subst hj
      rw [if_pos rfl, if_pos (Finset.mem_insert_self _ _), getElem?_chunks hchunk, hview]
    · rw [if_neg hj]
      simp [hj]
  · exact Finset.insert_subset (chunk_mem_parts.mpr hchunk) h.subset

end Holds

/-! ## Handlers collect parts -/

/-- What the caller gets for a part: the message when it completes it. -/
def outcome (m : Message) : Collect.Reply → Outcome
  | .duplicate => ⟨none, .duplicateDatagram⟩
  | .pending => ⟨none, .ok⟩
  | .complete => ⟨some m.chunks.flatten, .ok⟩

/-- The entry holds the parts that the collector has; without any part there is no entry. -/
def Represents (m : Message) (s : Collect.State Part TimePoint) : Entry → Prop
  | none => s.got = ∅
  | some p => m.Holds s.got p ∧ s.got ≠ ∅ ∧ s.got ≠ m.parts ∧ p.info.lastAccess = s.stamp

variable {s : Collect.State Part TimePoint} {entry : Entry} {part : Part} {a : Arrival}

theorem Represents.holds (h : m.Represents s entry) : m.Holds s.got entry.package := by
  cases entry with
  | none =>
    have hgot : s.got = ∅ := h
    rw [hgot]
    exact m.holds_default
  | some p => exact h.1

/-- The checks deliver the package when the new part completes it. -/
theorem finish_of_holds {S : Finset Part} {p : FragmentedPackage} (h : m.Holds (insert part S) p)
    (hnew : part ∉ S) (stamp : TimePoint) :
    ∃ entry', Entry.finish p =
        .ok (entry', m.outcome (Collect.offer m.parts p.info.lastAccess ⟨S, stamp⟩ part).2) ∧
      m.Represents (Collect.offer m.parts p.info.lastAccess ⟨S, stamp⟩ part).1 entry' := by
  by_cases hwhole : insert part S = m.parts
  · rw [Collect.offer_of_complete hnew hwhole]
    rw [hwhole] at h
    have hcomplete := h.complete_iff.mpr rfl
    have hsize : p.content.length = p.info.totalSizeBytes.toNat := by
      rw [h.content, h.size info_mem_parts]
    rw [Entry.finish_of_complete h.counted hcomplete hsize, h.content]
    exact ⟨none, rfl, rfl⟩
  · rw [Collect.offer_of_pending hnew hwhole,
      Entry.finish_of_not_complete h.counted (h.complete_iff.not.mpr hwhole)]
    exact ⟨some p, rfl, h, Finset.insert_ne_empty _ _, hwhole, rfl⟩

/-- A handler that reads a part of the message offers it to the parts that the entry holds. -/
theorem step_of_reads (h : m.Represents s entry) (hpart : part ∈ m.parts) (hreads : m.Reads part a)
    (now : TimePoint) :
    ∃ entry', Entry.step now entry a =
        .ok (entry', m.outcome (Collect.offer m.parts now s part).2) ∧
      m.Represents (Collect.offer m.parts now s part).1 entry' := by
  have hholds := h.holds
  cases hreads with
  | info =>
    by_cases hmem : Part.info ∈ s.got
    · rw [Collect.offer_of_mem hmem]
      exact ⟨entry, if_pos (hholds.info.mpr hmem), h⟩
    · rw [show Entry.step now entry (.info m.num m.len) = _ from
        if_neg (hholds.info.not.mpr hmem)]
      exact finish_of_holds (hholds.withInfo now) hmem s.stamp
  | chunk i view hview =>
    have hi := chunk_mem_parts.mp hpart
    have hnum := toNat_ofNat_of_lt hi
    have hlt := hholds.lt_length_withRoom hi
    have hlength := hholds.counted.length_lt
    have hroom := hholds.withRoom (UInt32.ofNat i)
    have hrange : (UInt32.ofNat i).toNat <
        (entry.package.withRoom (UInt32.ofNat i)).fragments.length := by rwa [hnum]
    by_cases hmem : Part.chunk i ∈ s.got
    · rw [Collect.offer_of_mem hmem, Entry.step_fragment_of_isSome hlength hrange
        (by rw [hnum]; exact (hholds.isSome_part i).mpr hmem)]
      refine ⟨_, rfl, hroom, ?_⟩
      cases entry with
      | none =>
        have hgot : s.got = ∅ := h
        rw [hgot] at hmem
        exact absurd hmem (Finset.notMem_empty _)
      | some p => exact h.2
    · rw [Entry.step_fragment_of_new hlength hrange (by rw [hnum, hholds.parts, if_neg hmem])]
      exact finish_of_holds (hroom.withFragment hlt hi hmem now hview) hmem s.stamp

theorem Represents.prune (h : m.Represents s entry) (maxAge : TimePoint) :
    m.Represents (Collect.expire maxAge s) (entry.prune maxAge) := by
  unfold Collect.expire
  cases entry with
  | none =>
    have hgot : s.got = ∅ := h
    split_ifs
    · rfl
    · exact hgot
  | some p =>
    obtain ⟨hholds, hne, hparts, hstamp⟩ := h
    unfold Entry.prune
    by_cases hold : s.stamp < maxAge
    · rw [if_pos hold, Option.filter_some, if_neg (by simpa [hstamp] using hold)]
      rfl
    · rw [if_neg hold, Option.filter_some, if_pos (by simpa [hstamp] using hold)]
      exact ⟨hholds, hne, hparts, hstamp⟩

/-- The input hands in a part of the message at the given time. -/
def IsPart (m : Message) (x : TimePoint × Arrival) (offered : TimePoint × Part) : Prop :=
  x.1 = offered.1 ∧ offered.2 ∈ m.parts ∧ m.Reads offered.2 x.2

/-- A run of handlers on parts of the message is a run of offers. -/
theorem run_of_parts {xs : List (TimePoint × Arrival)} {offered : List (TimePoint × Part)}
    (hxs : List.Forall₂ m.IsPart xs offered) (h : m.Represents s entry) :
    ∃ entry', Machine.run Entry.handle entry xs =
        ((Collect.offers m.parts s offered).1.map fun reply => some (m.outcome reply),
          .ok entry') ∧
      m.Represents (Collect.offers m.parts s offered).2 entry' := by
  induction hxs generalizing s entry with
  | nil => exact ⟨entry, rfl, h⟩
  | @cons x offered xs rest hx _ ih =>
    obtain ⟨now, a⟩ := x
    obtain ⟨now', part⟩ := offered
    obtain ⟨rfl, hpart, hreads⟩ := hx
    obtain ⟨entry₁, hstep, h₁⟩ := step_of_reads h hpart hreads now
    obtain ⟨entry', hrun, h'⟩ := ih h₁
    refine ⟨entry', ?_, ?_⟩
    · rw [Machine.run_cons_ok (Entry.handle_of_step hstep), hrun]
      rfl
    · exact h'

theorem Represents.eq_none {stamp : TimePoint} (h : m.Represents ⟨∅, stamp⟩ entry) :
    entry = none := by
  cases entry with
  | none => rfl
  | some p => exact absurd rfl h.2.1

end Message

end Ecaludp
