import Ecaludp.Socket.Send
import Ecaludp.DatagramBuilder.Slices

/-!
# Datagrams in one gather operation

A send gathers 64 buffers at most, the header of the datagram among them. The builder bounds the
bytes of a datagram, not the number of user buffers that they lie in, and appends one entry for each
of them. `gathered_iff` says which messages are sent whole: those with at most 63 user buffers in
every datagram.
-/

namespace Ecaludp

open ByteOrder Blocks Windows

/-! ## Whole datagrams -/

/-- The number of payload bytes that the header of a datagram announces; the length field of an info
is the size of the message, and no payload follows it. -/
def announcedPayload (host : ByteOrder) (d : DatagramDescription) : ℕ :=
  if host.le32toh d.header.type = DatagramType.fragmentedMessageInfo.toUInt32 then 0
  else (host.le32toh d.header.len).toNat

/-- A datagram fits into one gather operation, and what is sent of it are its header and as many
bytes as the header announces. -/
def Gathered (host : ByteOrder) (d : DatagramDescription) : Prop :=
  d.asioBufferList.length ≤ maxBuffers ∧
    ∃ payload, d.transmitted host = d.header.store host ++ payload ∧
      payload.length = announcedPayload host d

section Whole

variable (host : ByteOrder) (magic : Magic)

theorem gathered_fragmentInfoDatagram (messageId num len : UInt32) :
    Gathered host (fragmentInfoDatagram host magic messageId num len) := by
  refine ⟨Nat.le_of_ble_eq_true rfl, [], ?_, ?_⟩
  · rw [List.append_nil]
    exact List.flatten_singleton
  · unfold announcedPayload fragmentInfoDatagram fillHeader
    simp only
    rw [le32toh_htole32, if_pos rfl, List.length_nil]

theorem gathered_iff_of_payload {type : DatagramType} (htype : type ≠ .fragmentedMessageInfo)
    (id num : UInt32) (areas : List (List UInt8)) :
    Gathered host ⟨fillHeader host magic type id num (UInt32.ofNat areas.flatten.length),
        .headerBuffer :: areas.map .userBuffer⟩ ↔
      areas.length < maxBuffers ∧ areas.flatten.length < 2 ^ 32 := by
  set header := fillHeader host magic type id num (UInt32.ofNat areas.flatten.length) with hheader
  have hentries : (AsioBuffer.headerBuffer :: areas.map .userBuffer).length = areas.length + 1 := by
    rw [List.length_cons, List.length_map]
  have hannounced : announcedPayload host ⟨header, .headerBuffer :: areas.map .userBuffer⟩ =
      areas.flatten.length % 2 ^ 32 := by
    have hne : type.toUInt32 ≠ DatagramType.fragmentedMessageInfo.toUInt32 := by
      revert htype
      cases type <;> decide
    unfold announcedPayload
    rw [hheader, fillHeader]
    simp only
    rw [le32toh_htole32, le32toh_htole32, if_neg hne, UInt32.toNat_ofNat']
  have hbuffers :
      DatagramDescription.buffers host ⟨header, .headerBuffer :: areas.map .userBuffer⟩ =
      header.store host :: areas := by
    rw [DatagramDescription.buffers, List.map_cons, List.map_map]
    exact congrArg _ (List.map_id' areas)
  have htransmitted (hle : areas.length < maxBuffers) :
      DatagramDescription.transmitted host ⟨header, .headerBuffer :: areas.map .userBuffer⟩ =
        header.store host ++ areas.flatten := by
    rw [DatagramDescription.transmitted, hbuffers, List.take_of_length_le, List.flatten_cons]
    exact hle
  unfold Gathered
  rw [hannounced]
  simp only [hentries]
  constructor
  · rintro ⟨hle, payload, hpayload, hlength⟩
    refine ⟨hle, ?_⟩
    rw [htransmitted hle] at hpayload
    rw [← List.append_cancel_left hpayload] at hlength
    exact hlength ▸ Nat.mod_lt _ (by decide)
  · rintro ⟨hle, hlt⟩
    exact ⟨hle, areas.flatten, htransmitted hle, (Nat.mod_eq_of_lt hlt).symm⟩

end Whole

/-! ## Which messages are sent whole -/

/-- No datagram takes bytes from more than 63 user buffers or carries 4 GiB: if the message fits
into one datagram, that is a condition on its buffers without the empty ones, and otherwise on the
buffers with bytes in each block of the payload size. -/
def WithinGather (buffers : List (List UInt8)) (maxDatagramSize : ℕ) : Prop :=
  if (totalSize64 buffers + 24).toNat ≤ maxDatagramSize then
    (buffers.filter fun buffer => 0 < buffer.length).length < maxBuffers ∧
      buffers.flatten.length < 2 ^ 32
  else
    (∀ j, (slices buffers (j * (maxDatagramSize - sizeofHeader))
        ((j + 1) * (maxDatagramSize - sizeofHeader))).length < maxBuffers) ∧
      min (maxDatagramSize - sizeofHeader) buffers.flatten.length < 2 ^ 32

section Messages

variable {host : ByteOrder} {magic : Magic} {buffers : List (List UInt8)} {maxDatagramSize : ℕ}

theorem gathered_fragments_iff {messageId : UInt32} {blockSize : ℕ}
    {pieces : List (List (List UInt8))} (hpositive : 0 < blockSize)
    (hcut : Cut blockSize (pieces.map List.flatten))
    (hflatten : (pieces.map List.flatten).flatten = buffers.flatten)
    (hslices : ∀ j (hj : j < pieces.length),
      pieces[j] = slices buffers (j * blockSize) ((j + 1) * blockSize)) :
    (∀ d ∈ pieces.mapIdx (fragmentOf host magic messageId), Gathered host d) ↔
      (∀ j, (slices buffers (j * blockSize) ((j + 1) * blockSize)).length < maxBuffers) ∧
        min blockSize buffers.flatten.length < 2 ^ 32 := by
  have hgathered : ∀ j areas, Gathered host (fragmentOf host magic messageId j areas) ↔
      areas.length < maxBuffers ∧ areas.flatten.length < 2 ^ 32 := fun j areas =>
    gathered_iff_of_payload host magic (by decide) messageId (UInt32.ofNat j) areas
  have hcount := hcut.length_eq_ceilDiv hpositive
  rw [List.length_map, hflatten] at hcount
  have hlength : ∀ j (hj : j < pieces.length),
      pieces[j].flatten.length = min blockSize (buffers.flatten.length - j * blockSize) := by
    intro j hj
    have hblock := hcut.length_getElem (i := j) (by rwa [List.length_map])
    rwa [List.getElem_map, hflatten] at hblock
  constructor
  · intro h
    have hpiece : ∀ j (hj : j < pieces.length),
        pieces[j].length < maxBuffers ∧ pieces[j].flatten.length < 2 ^ 32 := fun j hj =>
      (hgathered j _).mp (h _ (List.mem_mapIdx.mpr ⟨j, hj, rfl⟩))
    refine ⟨fun j => ?_, ?_⟩
    · by_cases hj : j < pieces.length
      · rw [← hslices j hj]
        exact (hpiece j hj).1
      · -- there is nothing in the windows behind the last block
        have hbehind : buffers.flatten.length ≤ j * blockSize := by
          rw [hcount, Nat.not_lt, ceilDiv_le_iff_le_mul hpositive] at hj
          rwa [Nat.mul_comm]
        rw [slices_of_length_le hbehind]
        decide
    · rcases Nat.eq_zero_or_pos pieces.length with hnil | hpos
      · rw [List.length_eq_zero_iff] at hnil
        rw [← hflatten, hnil, List.map_nil, List.flatten_nil, List.length_nil, Nat.min_zero]
        decide
      · have hfirst := (hpiece 0 hpos).2
        rwa [hlength, Nat.zero_mul, Nat.sub_zero] at hfirst
  · rintro ⟨hentries, hsize⟩ d hd
    obtain ⟨j, hj, rfl⟩ := List.mem_mapIdx.mp hd
    refine (hgathered j _).mpr ⟨?_, ?_⟩
    · rw [hslices j hj]
      exact hentries j
    · rw [hlength j hj]
      exact Nat.lt_of_le_of_lt (min_le_min_left _ (Nat.sub_le _ _)) hsize

/-- Gather limit: the datagrams of a message are sent whole, in one gather operation each, if and
only if the message is within the limit; and the two send functions put the datagrams on the wire as
they are gathered, one after the other, and all of them unless asio reports an error. -/
theorem gathered_iff (host : ByteOrder) (settings : SocketSettings) {buffers : List (List UInt8)}
    {maxDatagramSize : ℕ} {rng rng' : Xorshf96} {datagrams : DatagramList}
    (h : createDatagramList host buffers maxDatagramSize settings.magicHeaderBytes rng =
      .ok (datagrams, rng')) :
    ((∀ d ∈ datagrams, Gathered host d) ↔ WithinGather buffers maxDatagramSize) ∧
      ∀ {σ Err : Type} (asio : AsioSocket σ Err), asio.Lawful → ∀ s : σ,
        (∃ s' sent ec n, Socket.sendTo asio host settings maxDatagramSize buffers rng s =
            .ok (rng', s', sent, ec) ∧
          asio.wire s' = asio.wire s ++
            (datagrams.take n).map (DatagramDescription.transmitted host) ∧
          (ec = none → n = datagrams.length)) ∧
        ∃ s' ec n, Socket.asyncSendTo asio host settings maxDatagramSize buffers rng s =
            .ok (rng', s', ec) ∧
          asio.wire s' = asio.wire s ++
            (datagrams.take n).map (DatagramDescription.transmitted host) ∧
          (ec = none → n = datagrams.length) := by
  refine ⟨?_, fun asio hasio s => ⟨?_, ?_⟩⟩
  · unfold WithinGather
    rw [totalSize64_eq]
    obtain ⟨hsize, ⟨hfits, -, rfl⟩ | ⟨hfits, -, num, pieces, -, rfl, hcut, hflatten⟩⟩ :=
      eq_of_createDatagramList h
    · rw [if_pos hfits, List.forall_mem_singleton, createNonFragmentedDatagram, totalSize32_eq,
        gathered_iff_of_payload host _ (by decide), flatten_filter_length_pos]
    · rw [if_neg hfits, fragmentList, List.forall_mem_cons, and_iff_right
        (gathered_fragmentInfoDatagram host _ _ _ _)]
      exact gathered_fragments_iff (by omega) hcut hflatten
        (eq_slices_of_createDatagramList hsize hfits h)
  · obtain ⟨n, hwire, hall⟩ := wire_sendDatagramListTo hasio host datagrams 0 s
    exact ⟨_, _, _, n, by rw [Socket.sendTo, h]; rfl, hwire, hall⟩
  · obtain ⟨n, hwire, hall⟩ := wire_asyncSendDatagramListTo hasio host datagrams s
    exact ⟨_, _, n, by rw [Socket.asyncSendTo, h]; rfl, hwire, hall⟩

/-- A socket without errors whose state is what it has sent. -/
def wireLog : AsioSocket (List (List UInt8)) Unit where
  sendTo buffers s :=
    (s ++ [(buffers.take maxBuffers).flatten],
      UInt64.ofNat (buffers.take maxBuffers).flatten.length, none)
  asyncSendTo buffers s := (s ++ [(buffers.take maxBuffers).flatten], none)
  wire s := s

theorem lawful_wireLog : wireLog.Lawful := ⟨fun _ _ => rfl, fun _ _ => rfl⟩

theorem gathered_two_buffers :
    ∃ datagrams, createDatagramList .littleEndian [[1, 2], [3]] 1448 #v[69, 67, 65, 76] ⟨1, 2, 3⟩ =
        .ok (datagrams, ⟨1, 2, 3⟩) ∧
      ((∀ d ∈ datagrams, Gathered .littleEndian d) ↔ WithinGather [[1, 2], [3]] 1448) ∧
      ∃ s' sent ec n, Socket.sendTo wireLog .littleEndian ⟨#v[69, 67, 65, 76], 5⟩ 1448 [[1, 2], [3]]
          ⟨1, 2, 3⟩ [] = .ok (⟨1, 2, 3⟩, s', sent, ec) ∧
        s' = [] ++ (datagrams.take n).map (DatagramDescription.transmitted .littleEndian) ∧
        (ec = none → n = datagrams.length) := by
  have hfits : (UInt64.ofNat [[1, 2], [(3 : UInt8)]].flatten.length + 24).toNat ≤ 1448 := by decide
  have h := createDatagramList_eq_of_fits (by decide : 24 < 1448) hfits .littleEndian
    #v[69, 67, 65, 76] ⟨1, 2, 3⟩
  have hgathered := gathered_iff .littleEndian ⟨#v[69, 67, 65, 76], 5⟩ h
  exact ⟨_, h, hgathered.1, (hgathered.2 wireLog lawful_wireLog []).1⟩

/-- A message of 64 bytes in 64 buffers fits into a datagram, but its last byte is not sent. -/
theorem last_buffer_not_sent :
    ∃ datagrams rng', createDatagramList .littleEndian (List.replicate 64 [7]) 1448
        #v[69, 67, 65, 76] ⟨1, 2, 3⟩ = .ok (datagrams, rng') ∧
      ∃ d ∈ datagrams, ¬ d.asioBufferList.length ≤ maxBuffers ∧
        (d.transmitted .littleEndian).length = sizeofHeader + 63 ∧
        announcedPayload .littleEndian d = 64 := by
  have hfilter : (List.replicate 64 [(7 : UInt8)]).filter (fun buffer => 0 < buffer.length) =
      List.replicate 64 [7] :=
    List.filter_replicate_of_pos rfl
  refine ⟨_, _, createDatagramList_eq_of_fits (by decide) (by decide) .littleEndian _ _, _,
    List.mem_singleton_self _, ?_, ?_, ?_⟩ <;> rw [hfilter]
  · decide
  · unfold DatagramDescription.transmitted DatagramDescription.buffers createNonFragmentedDatagram
    simp [store_fillHeader]
  · unfold announcedPayload createNonFragmentedDatagram fillHeader
    simp only
    rw [le32toh_htole32, le32toh_htole32, totalSize32_eq]
    rfl

end Messages

end Ecaludp
