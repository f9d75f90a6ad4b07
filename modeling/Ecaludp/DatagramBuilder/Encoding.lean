import Ecaludp.DatagramBuilder.Wire

/-!
# The wire format and its limits

As long as the size of a message and of the payload of a datagram together do not exceed 2 ^ 32, the
builder's datagrams are the reference encoding of the message (`createDatagramList_eq_encoding`).
Above, the sum in the fragment count wraps, and the info announces too few fragments: the count is
right exactly up to that limit (`announcesExactly_iff`), which lies below the 4 GiB that the length
fields could express.
-/

namespace Ecaludp

open ByteOrder Blocks

/-! ## Reference encoding -/

/-- The datagrams of a message: one with its bytes if they fit in, or else an info that announces
the blocks of the message and a fragment for each of them. -/
def referenceEncoding (magic : Magic) (messageId : UInt32) (maxDatagramSize : ℕ)
    (message : List UInt8) : List (List UInt8) :=
  if message.length + sizeofHeader ≤ maxDatagramSize then
    [wireNonFragmented magic message]
  else
    let payloads := blocks (maxDatagramSize - sizeofHeader) message
    wireHeader magic .fragmentedMessageInfo messageId.toInt32 (UInt32.ofNat payloads.length)
        (UInt32.ofNat message.length) ::
      payloads.mapIdx (wireFragment magic messageId)

section Encoding

variable {buffers : List (List UInt8)} {maxDatagramSize : ℕ}

/-- In `size_t` arithmetic, too, a message that is larger than a datagram does not fit. -/
theorem fits_iff (hlt : buffers.flatten.length + sizeofHeader < 2 ^ 64) :
    (UInt64.ofNat buffers.flatten.length + 24).toNat ≤ maxDatagramSize ↔
      buffers.flatten.length + sizeofHeader ≤ maxDatagramSize := by
  rw [UInt64.toNat_add, UInt64.toNat_ofNat', show (24 : UInt64).toNat = 24 from rfl]
  unfold sizeofHeader at hlt ⊢
  omega

/-- The datagrams of a message that does not fit into one: an info with the number of the fragments
and the size of the message. -/
theorem createDatagramList_eq_fragmentList (hsize : sizeofHeader < maxDatagramSize)
    (htotal : buffers.flatten.length + (maxDatagramSize - sizeofHeader) ≤ 2 ^ 32)
    (hfragmented : maxDatagramSize < buffers.flatten.length + sizeofHeader) (host : ByteOrder)
    (magic : Magic) (rng : Xorshf96) :
    ∃ pieces : List (List (List UInt8)),
      createDatagramList host buffers maxDatagramSize magic rng =
        .ok (fragmentList host magic (xorshf96 rng).1 (UInt32.ofNat pieces.length)
          (UInt32.ofNat buffers.flatten.length) pieces, (xorshf96 rng).2) ∧
      pieces.length < 2 ^ 32 ∧
      Cut (maxDatagramSize - sizeofHeader) (pieces.map List.flatten) ∧
      (pieces.map List.flatten).flatten = buffers.flatten := by
  have hheader : sizeofHeader = 24 := rfl
  have hfits := (fits_iff (by omega)).not.mpr (Nat.not_le.mpr hfragmented)
  obtain ⟨num, hnum, hcount⟩ := neededFragmentCount_eq (UInt32.ofNat buffers.flatten.length) hsize
    (by omega) (by omega)
  rcases createDatagramList_eq_of_not_fits hsize hfits host magic rng with
    ⟨e, he, -⟩ | ⟨num', pieces, hnum', hlist, hcut, hflatten⟩
  · rw [hnum] at he
    cases he
  · rw [hnum] at hnum'
    cases hnum'
    have hlength : pieces.length = num.toNat := by
      have := hcut.length_eq (by omega)
      rw [List.length_map, hflatten] at this
      rw [this, hcount, UInt32.toNat_ofNat', Nat.mod_eq_of_lt (by omega),
        Nat.mod_eq_of_lt (by omega)]
    refine ⟨pieces, ?_, hlength ▸ num.toNat_lt, hcut, hflatten⟩
    rw [hlist, hlength, UInt32.ofNat_toNat]

/-- Wire format: the datagrams of a message depend on its bytes only and are the reference encoding;
none exceeds the maximum size, and every fragment carries a byte. -/
theorem createDatagramList_eq_encoding (host : ByteOrder) (buffers : List (List UInt8))
    (maxDatagramSize : ℕ) (hsize : sizeofHeader < maxDatagramSize)
    (htotal : buffers.flatten.length + (maxDatagramSize - sizeofHeader) ≤ 2 ^ 32) (magic : Magic)
    (rng : Xorshf96) :
    ∃ datagrams rng', createDatagramList host buffers maxDatagramSize magic rng =
        .ok (datagrams, rng') ∧
      datagrams.map (DatagramDescription.serialise host) =
        referenceEncoding magic (xorshf96 rng).1 maxDatagramSize buffers.flatten ∧
      (∀ d ∈ datagrams, (d.serialise host).length ≤ maxDatagramSize) ∧
      ∀ d ∈ datagrams.tail, sizeofHeader < (d.serialise host).length := by
  have hheader : sizeofHeader = 24 := rfl
  by_cases hfragmented : maxDatagramSize < buffers.flatten.length + sizeofHeader
  · obtain ⟨pieces, hlist, -, hcut, hflatten⟩ :=
      createDatagramList_eq_fragmentList hsize htotal hfragmented host magic rng
    refine ⟨_, _, hlist, ?_, ?_, ?_⟩
    · have hblocks := hcut.eq_blocks (by omega)
      rw [hflatten] at hblocks
      rw [serialise_fragmentList, referenceEncoding, if_neg (Nat.not_le.mpr hfragmented),
        ← hblocks]
      simp only [List.length_map]
    · intro d hd
      rcases List.mem_cons.mp hd with rfl | hd
      · rw [serialise_fragmentInfoDatagram, length_wireHeader]
        omega
      · have := length_serialise_of_mem_fragments hcut hd
        omega
    · intro d hd
      exact (length_serialise_of_mem_fragments hcut hd).1
  · have hfits := Nat.not_lt.mp hfragmented
    refine ⟨_, _, createDatagramList_eq_of_fits hsize
      ((fits_iff (by omega)).mpr hfits) host magic rng, ?_, ?_, ?_⟩
    · rw [List.map_singleton, serialise_createNonFragmentedDatagram, flatten_filter_length_pos,
        referenceEncoding, if_pos hfits]
    · intro d hd
      rw [List.mem_singleton.mp hd, serialise_createNonFragmentedDatagram,
        flatten_filter_length_pos, wireNonFragmented, List.length_append, length_wireHeader]
      omega
    · intro d hd
      cases hd

theorem createDatagramList_eq_encoding_bytes :
    ∃ datagrams rng', createDatagramList .bigEndian [[1, 2], [], [3, 4, 5]] 26 #v[69, 67, 65, 76]
          (Xorshf96.mk 123456789 362436069 521288629) = .ok (datagrams, rng') ∧
      datagrams.map (DatagramDescription.serialise .bigEndian) =
        referenceEncoding #v[69, 67, 65, 76] (xorshf96 ⟨123456789, 362436069, 521288629⟩).1 26
          [1, 2, 3, 4, 5] ∧
      (∀ d ∈ datagrams, (d.serialise .bigEndian).length ≤ 26) ∧
      ∀ d ∈ datagrams.tail, sizeofHeader < (d.serialise .bigEndian).length :=
  createDatagramList_eq_encoding .bigEndian [[1, 2], [], [3, 4, 5]] 26 (by decide) (by decide)
    #v[69, 67, 65, 76] ⟨123456789, 362436069, 521288629⟩

/-! ## The announced count -/

/-- The fragment count is computed without a division by zero, a signed overflow or a wrap. -/
def ComputedExactly (totalSize : UInt32) (payload : Int32) : Prop :=
  payload ≠ Int32.minValue ∧ payload ≠ 0 ∧
    totalSize.toNat + (payload - 1).toUInt32.toNat < 2 ^ 32

/-- The info announces the number of the fragments that follow it, which is the size of the message
divided by the payload size and rounded up, and the size of the message. -/
def AnnouncedExactly (host : ByteOrder) (buffers : List (List UInt8)) (maxDatagramSize : ℕ)
    (magic : Magic) (rng : Xorshf96) : Prop :=
  ∃ info fragments rng', createDatagramList host buffers maxDatagramSize magic rng =
      .ok (info :: fragments, rng') ∧
    (host.le32toh info.header.num).toNat = fragments.length ∧
    fragments.length = buffers.flatten.length ⌈/⌉ (maxDatagramSize - sizeofHeader) ∧
    (host.le32toh info.header.len).toNat = buffers.flatten.length

theorem announcedExactly_of_le (hsize : sizeofHeader < maxDatagramSize)
    (hfragmented : maxDatagramSize < buffers.flatten.length + sizeofHeader)
    (htotal : buffers.flatten.length + (maxDatagramSize - sizeofHeader) ≤ 2 ^ 32) (host : ByteOrder)
    (magic : Magic) (rng : Xorshf96) :
    AnnouncedExactly host buffers maxDatagramSize magic rng := by
  obtain ⟨pieces, hlist, hlength, hcut, hflatten⟩ :=
    createDatagramList_eq_fragmentList hsize htotal hfragmented host magic rng
  have hcount := hcut.length_eq_ceilDiv (by omega)
  rw [List.length_map, hflatten] at hcount
  refine ⟨_, _, _, hlist, ?_, ?_, ?_⟩
  · show (host.le32toh (host.htole32 (UInt32.ofNat pieces.length))).toNat = _
    rw [le32toh_htole32, List.length_mapIdx, UInt32.toNat_ofNat', Nat.mod_eq_of_lt hlength]
  · rw [List.length_mapIdx, hcount]
  · show (host.le32toh (host.htole32 (UInt32.ofNat buffers.flatten.length))).toNat = _
    rw [le32toh_htole32, UInt32.toNat_ofNat', Nat.mod_eq_of_lt (by omega)]

/-- Above the limit the sum wraps, and fewer fragments are announced than sent, or it overflows. -/
theorem not_announcedExactly_of_lt (hsize : sizeofHeader < maxDatagramSize)
    (hlt : buffers.flatten.length < 2 ^ 32)
    (hfragmented : maxDatagramSize < buffers.flatten.length + sizeofHeader)
    (htotal : 2 ^ 32 < buffers.flatten.length + (maxDatagramSize - sizeofHeader)) (host : ByteOrder)
    (magic : Magic) (rng : Xorshf96) :
    ¬ AnnouncedExactly host buffers maxDatagramSize magic rng := by
  have hheader : sizeofHeader = 24 := rfl
  have hfits := (fits_iff (by omega)).not.mpr (Nat.not_le.mpr hfragmented)
  rintro ⟨info, fragments, rng', hlist, hnum, hcount, -⟩
  rcases createDatagramList_eq_of_not_fits hsize hfits host magic rng with
    ⟨e, he, herror⟩ | ⟨num, pieces, hneeded, hlist', -, -⟩
  · rw [hlist] at herror
    cases herror
  · rw [hlist] at hlist'
    cases hlist'
    by_cases hmin : maxDatagramSize - sizeofHeader = 2 ^ 31
    · rw [neededFragmentCount,
        if_pos ((payloadBytesPerDatagram_eq_minValue hsize (by omega)).mpr hmin)] at hneeded
      cases hneeded
    · obtain ⟨num', hneeded', hvalue⟩ := neededFragmentCount_eq
        (UInt32.ofNat buffers.flatten.length) hsize (by omega) hmin
      rw [hneeded] at hneeded'
      cases hneeded'
      have hannounced : (host.le32toh (host.htole32 num)).toNat = _ := hnum
      rw [le32toh_htole32, hvalue, hcount, UInt32.toNat_ofNat', Nat.mod_eq_of_lt hlt,
        Nat.ceilDiv_eq_add_pred_div] at hannounced
      -- the wrapped sum is at least one payload size smaller
      set P := maxDatagramSize - sizeofHeader
      have hwrap : (buffers.flatten.length + (P - 1)) % 2 ^ 32 + P ≤
          buffers.flatten.length + P - 1 := by
        omega
      have hdiv := Nat.div_le_div_right (c := P) hwrap
      rw [Nat.add_div_right _ (by omega)] at hdiv
      omega

/-- The limit of the announced count: for a fragmented message of less than 4 GiB the info is exact,
and its count computed without overflow, if and only if the sizes of the message and of the payload
of a datagram do not exceed 2 ^ 32 together. -/
theorem announcedExactly_iff (host : ByteOrder) (buffers : List (List UInt8)) (maxDatagramSize : ℕ)
    (hsize : sizeofHeader < maxDatagramSize) (hlt : buffers.flatten.length < 2 ^ 32)
    (hfragmented : maxDatagramSize < buffers.flatten.length + sizeofHeader) (magic : Magic)
    (rng : Xorshf96) :
    AnnouncedExactly host buffers maxDatagramSize magic rng ∧
        ComputedExactly (UInt32.ofNat buffers.flatten.length)
          (payloadBytesPerDatagram maxDatagramSize) ↔
      buffers.flatten.length + (maxDatagramSize - sizeofHeader) ≤ 2 ^ 32 := by
  have hheader : sizeofHeader = 24 := rfl
  constructor
  · rintro ⟨hannounced, -⟩
    by_contra htotal
    exact not_announcedExactly_of_lt hsize hlt hfragmented (Nat.not_le.mp htotal) host magic rng
      hannounced
  · intro htotal
    refine ⟨announcedExactly_of_le hsize hfragmented htotal host magic rng, ?_,
      payloadBytesPerDatagram_ne_zero hsize (by omega), ?_⟩
    · rw [Ne, payloadBytesPerDatagram_eq_minValue hsize (by omega)]
      omega
    · rw [toNat_payloadBytesPerDatagram_sub_one hsize (by omega), UInt32.toNat_ofNat',
        Nat.mod_eq_of_lt hlt]
      omega

theorem announcedExactly_small :
    AnnouncedExactly .littleEndian [[1, 2, 3]] 26 #v[69, 67, 65, 76] ⟨1, 2, 3⟩ ∧
        ComputedExactly 3 (payloadBytesPerDatagram 26) ↔ 3 + (26 - 24) ≤ 2 ^ 32 :=
  announcedExactly_iff .littleEndian [[1, 2, 3]] 26 (by decide) (by decide) (by decide)
    #v[69, 67, 65, 76] ⟨1, 2, 3⟩

/-- One byte less than 4 GiB, with the default maximum size. -/
theorem announced_too_few :
    ¬ AnnouncedExactly .littleEndian [List.replicate (2 ^ 32 - 1) 0] 1448 #v[69, 67, 65, 76]
      ⟨1, 2, 3⟩ := by
  have hlength : [List.replicate (2 ^ 32 - 1) (0 : UInt8)].flatten.length = 2 ^ 32 - 1 := by
    rw [List.flatten_singleton, List.length_replicate]
  have hheader : sizeofHeader = 24 := rfl
  apply not_announcedExactly_of_lt
  · omega
  · rw [hlength]
    omega
  · rw [hlength]
    omega
  · rw [hlength]
    omega

end Encoding

end Ecaludp
