import Ecaludp.DatagramBuilder.Encoding
import Ecaludp.Reassembly.Message

/-!
# Round trip

The datagrams of a message, handed to a `Reassembly` in any order, give back the message and leave
no trace. The builder's datagrams are the parts of a `Message` (`createDatagramList_parts`), which
the handlers collect.
-/

namespace Ecaludp

open ByteOrder Blocks EntryMap Reassembly

variable {buffers : List (List UInt8)} {maxDatagramSize : ℕ}

theorem Message.map_encode_partList (m : Message) (magic : Magic) (messageId : UInt32) :
    m.partList.map (m.encode magic messageId.toInt32) =
      wireHeader magic .fragmentedMessageInfo messageId.toInt32 m.num m.len ::
        m.chunks.mapIdx (wireFragment magic messageId) := by
  rw [Message.partList, List.map_cons, List.map_map]
  congr 1
  refine List.ext_getElem (by simp) fun i h₁ h₂ => ?_
  have hi : i < m.chunks.length := by simpa using h₂
  have hchunk : m.chunk i = m.chunks[i] := List.getD_eq_getElem _ _ hi
  rw [List.getElem_map, List.getElem_range, List.getElem_mapIdx, ← hchunk]
  rfl

/-- The builder sends parts. The datagrams of a fragmented message are its parts. -/
theorem createDatagramList_parts (hsize : sizeofHeader < maxDatagramSize)
    (htotal : buffers.flatten.length + (maxDatagramSize - sizeofHeader) ≤ 2 ^ 32)
    (hfragmented : maxDatagramSize < buffers.flatten.length + sizeofHeader) (host : ByteOrder)
    (magic : Magic) (rng : Xorshf96) :
    ∃ (datagrams : DatagramList) (m : Message),
      createDatagramList host buffers maxDatagramSize magic rng =
        .ok (datagrams, (xorshf96 rng).2) ∧
      datagrams.map (DatagramDescription.serialise host) =
        m.partList.map (m.encode magic (xorshf96 rng).1.toInt32) ∧
      m.chunks.flatten = buffers.flatten := by
  have hheader : sizeofHeader = 24 := rfl
  obtain ⟨pieces, hlist, hlength, hcut, hflatten⟩ :=
    createDatagramList_eq_fragmentList hsize htotal hfragmented host magic rng
  have hchunks : (pieces.map List.flatten).length < 2 ^ 32 := by
    rw [List.length_map]
    exact hlength
  have hmessage : (pieces.map List.flatten).flatten.length < 2 ^ 32 := by
    rw [hflatten]
    omega
  let m : Message := ⟨pieces.map List.flatten, hchunks, hmessage⟩
  have hnum : m.num = UInt32.ofNat pieces.length := by
    show UInt32.ofNat (pieces.map List.flatten).length = _
    rw [List.length_map]
  have hlen : m.len = UInt32.ofNat buffers.flatten.length := by
    rw [← hflatten]
    rfl
  refine ⟨_, m, hlist, ?_, hflatten⟩
  rw [serialise_fragmentList, m.map_encode_partList, hnum, hlen]

theorem exists_offered (host : ByteOrder) {E : Type} {m : Message} {magic : Magic}
    {key : FragmentedPackageKey E} {calls : List (Call E)} {order : List (List UInt8)}
    {parts : List Part} (hcalls : List.Forall₂ (HandsIn key.endpoint) calls order)
    (horder : List.Forall₂ (fun bytes part => bytes = m.encode magic key.id part) order parts)
    (hparts : ∀ part ∈ parts, part ∈ m.parts) :
    ∃ xs offered, List.Forall₂ (IsArrival host key) calls xs ∧ List.Forall₂ m.IsPart xs offered ∧
      offered.map Prod.snd = parts := by
  induction hcalls generalizing parts with
  | nil =>
    cases horder
    exact ⟨[], [], .nil, .nil, rfl⟩
  | cons hcall hcalls ih =>
    cases horder with
    | @cons _ part _ parts hpart horder =>
      obtain ⟨xs, offered, harrivals, hoffered, hmap⟩ := ih horder
        fun part hmem => hparts part (List.mem_cons_of_mem _ hmem)
      obtain ⟨env, buffer, error, rfl, hbytes⟩ := hcall
      obtain ⟨a, harr, hreads⟩ := Message.arrivalOf_encode host (hbytes.trans hpart)
      refine ⟨(env.now, a) :: xs, (env.now, part) :: offered,
        .cons ⟨env, buffer, error, rfl, rfl, harr⟩ harrivals,
        .cons ⟨rfl, hparts part List.mem_cons_self, hreads⟩ hoffered, ?_⟩
      rw [List.map_cons, hmap]

/-- The parts of a message in any order give the message, and the map is the old one again. -/
theorem run_of_perm_parts (host : ByteOrder) {E : Type} [LinearOrder E]
    {m : Message} {magic : Magic}
    {key : FragmentedPackageKey E} {packages : Reassembly E} (hkey : packages[key]? = none)
    {calls : List (Call E)} {order : List (List UInt8)}
    (horder : order.Perm (m.partList.map (m.encode magic key.id)))
    (hcalls : List.Forall₂ (HandsIn key.endpoint) calls order) :
    Machine.run (step host) packages calls =
      (List.replicate (order.length - 1) (some ⟨none, .ok⟩) ++ [some ⟨some m.chunks.flatten, .ok⟩],
        .ok packages) := by
  have hencoded : List.Forall₂ (fun bytes part => bytes = m.encode magic key.id part)
      (m.partList.map (m.encode magic key.id)) m.partList := by
    rw [List.forall₂_map_left_iff]
    exact List.forall₂_same.mpr fun _ _ => rfl
  obtain ⟨parts, hparts, hperm⟩ := List.perm_comp_forall₂ horder hencoded
  obtain ⟨xs, offered, harrivals, hoffered, hmap⟩ := exists_offered host hcalls hparts
    fun _ => (Message.mem_iff_of_perm hperm).mp
  have hlength : offered.length = order.length := by
    rw [hparts.length_eq, ← hmap, List.length_map]
  have hinit : m.Represents ⟨∅, 0⟩ packages[key]? := by
    rw [hkey]
    rfl
  obtain ⟨entry, hrun, hentry⟩ := Message.run_of_parts hoffered hinit
  rcases List.eq_nil_or_concat' offered with rfl | ⟨init, last, rfl⟩
  · rw [List.map_nil] at hmap
    have := (Message.mem_iff_of_perm hperm).mpr Message.info_mem_parts
    rw [← hmap] at this
    cases this
  · have hnodup : ((init ++ [last]).map Prod.snd).Nodup := by
      rw [hmap]
      exact Message.nodup_of_perm hperm
    have hwhole : (∅ : Finset Part) ∪ ((init ++ [last]).map Prod.snd).toFinset = m.parts := by
      rw [hmap, Finset.empty_union, Message.toFinset_of_perm hperm]
    have hoffers := Collect.offers_of_perm (s := ⟨∅, (0 : TimePoint)⟩) hnodup
      (fun part _ => Finset.notMem_empty part) hwhole
    rw [hoffers] at hrun hentry
    rw [run_atKey host harrivals, hrun, hentry.eq_none]
    show (_, Except.ok (put packages key none)) = _
    rw [← hkey, put_getElem?, ← hlength, List.length_append, List.length_singleton,
      Nat.add_sub_cancel, List.map_append, List.map_replicate]
    rfl

theorem run_of_nonFragmented (host : ByteOrder) {E : Type} [LinearOrder E] {magic : Magic}
    {senderEndpoint : E} {packages : Reassembly E} {call : Call E} {payload : List UInt8}
    (hcall : HandsIn senderEndpoint call (wireNonFragmented magic payload)) :
    Machine.run (step host) packages [call] =
      ([some ⟨some (payload.take (payload.length % 2 ^ 32)), .ok⟩], .ok packages) := by
  obtain ⟨env, buffer, error, rfl, hbytes⟩ := hcall
  have hlen : (UInt32.ofNat payload.length).toNat = payload.length % 2 ^ 32 := UInt32.toNat_ofNat'
  obtain ⟨harr, hother⟩ := otherOutcome_wireNonFragmented host hbytes (Nat.le_of_eq hlen)
  rw [hlen] at hother
  rw [Machine.run_cons_ok
    (step_of_arrivalOf_none host env buffer senderEndpoint error packages harr), hother]
  rfl

/-- Round trip: whatever the buffers, the datagrams that the builder returns for them give the
message when they arrive in any order at an object without a package under their key: every call but
the last returns nothing, the last one the concatenation of the buffers, and the packages are the
same as before. -/
theorem roundTrip (sender receiver : ByteOrder) {E : Type} [LinearOrder E]
    (buffers : List (List UInt8)) (maxDatagramSize : ℕ) (hsize : sizeofHeader < maxDatagramSize)
    (htotal : buffers.flatten.length + (maxDatagramSize - sizeofHeader) ≤ 2 ^ 32) (magic : Magic)
    (rng : Xorshf96) :
    ∃ datagrams rng', createDatagramList sender buffers maxDatagramSize magic rng =
        .ok (datagrams, rng') ∧
      ∀ (senderEndpoint : E) (packages : Reassembly E) (order : List (List UInt8))
        (calls : List (Call E)),
        (∀ bytes ∈ order,
          packages[(⟨senderEndpoint, (wordAt bytes 12).toInt32⟩ : FragmentedPackageKey E)]? =
            none) →
        order.Perm (datagrams.map (DatagramDescription.serialise sender)) →
        List.Forall₂ (HandsIn senderEndpoint) calls order →
        Machine.run (step receiver) packages calls =
          (List.replicate (order.length - 1) (some ⟨none, .ok⟩) ++
            [some ⟨some buffers.flatten, .ok⟩], .ok packages) := by
  have hheader : sizeofHeader = 24 := rfl
  by_cases hfragmented : maxDatagramSize < buffers.flatten.length + sizeofHeader
  · obtain ⟨datagrams, m, hlist, hwire, hflatten⟩ :=
      createDatagramList_parts hsize htotal hfragmented sender magic rng
    refine ⟨datagrams, _, hlist, ?_⟩
    intro senderEndpoint packages order calls hkey horder hcalls
    rw [hwire] at horder
    rw [← hflatten]
    let key : FragmentedPackageKey E := ⟨senderEndpoint, (xorshf96 rng).1.toInt32⟩
    suffices hnone : packages[key]? = none from run_of_perm_parts receiver hnone horder hcalls
    have hinfo := hkey _ (horder.mem_iff.mpr List.mem_cons_self)
    have hid := idAt_wireHeader magic .fragmentedMessageInfo (xorshf96 rng).1.toInt32 m.num m.len []
    rw [List.append_nil] at hid
    rw [Message.encode, hid, Int32.toInt32_toUInt32] at hinfo
    exact hinfo
  · have hfits : (UInt64.ofNat buffers.flatten.length + 24).toNat ≤ maxDatagramSize :=
      (fits_iff (by omega)).mpr (Nat.not_lt.mp hfragmented)
    refine ⟨_, rng, createDatagramList_eq_of_fits hsize hfits sender magic rng, ?_⟩
    intro senderEndpoint packages order calls _ horder hcalls
    rw [List.map_singleton, serialise_createNonFragmentedDatagram, flatten_filter_length_pos,
      List.perm_singleton] at horder
    subst horder
    cases hcalls with
    | cons hcall hcalls =>
      cases hcalls
      have hwhole : buffers.flatten.take (buffers.flatten.length % 2 ^ 32) = buffers.flatten := by
        rw [Nat.mod_eq_of_lt (by omega), List.take_length]
      rw [← hwhole]
      exact run_of_nonFragmented receiver hcall

theorem roundTrip_reversed :
    ∃ datagrams rng', createDatagramList .littleEndian [[1, 2, 3], [], [4]] 26 #v[69, 67, 65, 76]
          ⟨123456789, 362436069, 521288629⟩ = .ok (datagrams, rng') ∧
      ∀ calls : List (Call ℕ),
        List.Forall₂ (HandsIn 0) calls
          (datagrams.map (DatagramDescription.serialise .littleEndian)).reverse →
        Machine.run (step .littleEndian) (∅ : Reassembly ℕ) calls =
          (List.replicate
              ((datagrams.map (DatagramDescription.serialise .littleEndian)).reverse.length - 1)
              (some ⟨none, .ok⟩) ++
            [some ⟨some [1, 2, 3, 4], .ok⟩], .ok ∅) := by
  obtain ⟨datagrams, rng', hlist, hrun⟩ := roundTrip .littleEndian .littleEndian (E := ℕ)
    [[1, 2, 3], [], [4]] 26 (by decide) (by decide) #v[69, 67, 65, 76]
    ⟨123456789, 362436069, 521288629⟩
  refine ⟨datagrams, rng', hlist, ?_⟩
  intro calls hcalls
  refine hrun 0 ∅ _ calls ?_ (List.reverse_perm _) hcalls
  intro bytes _
  exact Std.ExtTreeMap.getElem?_empty

end Ecaludp
