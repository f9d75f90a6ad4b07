import Ecaludp.DatagramBuilder.Wire
import Ecaludp.Lib.Windows

/-!
# Which areas a fragment gathers

A datagram of the fragmentation loop gathers the parts of the user buffers that lie in its block of
the message, one area for each buffer that has a byte there. The second invariant of the loop
(`FragmentLoop.Gathers`) states this of the bytes consumed so far; an area is not split in two
because the loop stays in a buffer only when the datagram is full.
-/

namespace Ecaludp

open ByteOrder Blocks Windows

/-! ## The areas of a list -/

section Injective

variable {host : ByteOrder} {magic : Magic} {messageId num num' len len' : UInt32}

theorem pieces_eq_of_fragmentList {pieces pieces' : List (List (List UInt8))}
    (h : fragmentList host magic messageId num len pieces =
      fragmentList host magic messageId num' len' pieces') : pieces = pieces' := by
  have hareas : ∀ (num len : UInt32) (ps : List (List (List UInt8))),
      (fragmentList host magic messageId num len ps).tail.map DatagramDescription.asioBufferList =
        ps.map fun areas => .headerBuffer :: areas.map .userBuffer := by
    intro num len ps
    rw [fragmentList, List.tail_cons]
    apply List.ext_getElem (by simp)
    intro j _ _
    rw [List.getElem_map, List.getElem_mapIdx, List.getElem_map]
    rfl
  have hmap := congrArg (fun l : DatagramList => l.tail.map DatagramDescription.asioBufferList) h
  simp only [hareas] at hmap
  refine List.map_injective_iff.mpr (fun areas areas' heq => ?_) hmap
  exact List.map_injective_iff.mpr (fun _ _ => AsioBuffer.userBuffer.inj) (List.cons.inj heq).2

end Injective

/-! ## The fragmentation loop -/

namespace FragmentLoop

variable {host : ByteOrder} {magic : Magic} {messageId num len : UInt32}
  {buffers : List (List UInt8)} {maxDatagramSize : ℕ} {s : FragmentLoop}

/-- The datagrams gather the parts of the buffers in their blocks, as far as they are consumed, and
the loop is inside a buffer only when the last datagram is full. -/
structure Gathers (host : ByteOrder) (magic : Magic) (messageId num len : UInt32)
    (buffers : List (List UInt8)) (maxDatagramSize : ℕ) (s : FragmentLoop) : Prop where
  inWindows : ∀ pieces, s.datagramList = fragmentList host magic messageId num len pieces →
    InWindows (maxDatagramSize - sizeofHeader) buffers (s.consumed buffers).length pieces
  dvd : 0 < s.offsetInCurrentBuffer →
    (maxDatagramSize - sizeofHeader) ∣ (s.consumed buffers).length

theorem gathers_init (host : ByteOrder) (magic : Magic) (messageId num len : UInt32)
    (buffers : List (List UInt8)) (maxDatagramSize : ℕ) :
    Gathers host magic messageId num len buffers maxDatagramSize
      { datagramList := [fragmentInfoDatagram host magic messageId num len] } := by
  refine ⟨fun pieces h => ?_, fun h => absurd h (Nat.lt_irrefl 0)⟩
  obtain rfl : [] = pieces := pieces_eq_of_fragmentList h
  exact inWindows_nil

theorem length_consumed
    (hoffset : s.offsetInCurrentBuffer < (buffers.getD s.bufferIndex []).length) :
    (s.consumed buffers).length =
      (buffers.take s.bufferIndex).flatten.length + s.offsetInCurrentBuffer := by
  rw [consumed, List.length_append, List.length_take, Nat.min_eq_left (Nat.le_of_lt hoffset)]

theorem Gathers.inWindows_open {pieces : List (List (List UInt8))} {areas : List (List UInt8)}
    (h : s.Gathers host magic messageId num len buffers maxDatagramSize)
    (hlist : s.datagramList = fragmentList host magic messageId num len (pieces ++ [areas]) ∨
      s.datagramList = fragmentList host magic messageId num len pieces ∧ areas = [])
    (hposition : (s.consumed buffers).length =
      pieces.length * (maxDatagramSize - sizeofHeader) + areas.flatten.length) :
    InWindows (maxDatagramSize - sizeofHeader) buffers (s.consumed buffers).length
      (pieces ++ [areas]) := by
  rcases hlist with hlist | ⟨hlist, rfl⟩
  · exact h.inWindows _ hlist
  · apply inWindows_concat.mpr ⟨h.inWindows _ hlist, _⟩
    rw [slices_of_le]
    rw [hposition, List.flatten_nil, List.length_nil]
    exact Nat.min_le_right _ _

/-- The next part begins at the start of a buffer or of a block. -/
theorem Gathers.boundary {q r : ℕ}
    (h : s.Gathers host magic messageId num len buffers maxDatagramSize)
    (hoffset : s.offsetInCurrentBuffer < (buffers.getD s.bufferIndex []).length)
    (hposition : (s.consumed buffers).length = q * (maxDatagramSize - sizeofHeader) + r)
    (hroom : r < maxDatagramSize - sizeofHeader) :
    (buffers.take s.bufferIndex).flatten.length = (s.consumed buffers).length ∨
      (s.consumed buffers).length = q * (maxDatagramSize - sizeofHeader) := by
  rcases Nat.eq_zero_or_pos s.offsetInCurrentBuffer with hzero | hinside
  · left
    rw [length_consumed hoffset, hzero, Nat.add_zero]
  · right
    -- inside a buffer the last datagram was full, so that a new one was begun
    have hdvd := h.dvd hinside
    rw [hposition] at hdvd ⊢
    rw [Nat.eq_zero_of_dvd_of_lt ((Nat.dvd_add_right (Nat.dvd_mul_left _ q)).mp hdvd) hroom,
      Nat.add_zero]

/-- One iteration adds the next part of the current block. -/
theorem gathers_body (hsize : sizeofHeader < maxDatagramSize)
    (hinv : s.Invariant host magic messageId num len buffers maxDatagramSize)
    (h : s.Gathers host magic messageId num len buffers maxDatagramSize)
    (hlt : s.bufferIndex < buffers.length) :
    (fragmentLoopBody host buffers maxDatagramSize magic messageId s).Gathers
      host magic messageId num len buffers maxDatagramSize := by
  obtain ⟨pieces, areas, hopen, hlist, hfull, hroom, hconsumed⟩ := exists_open_fragment hsize hinv
  have hoffset := hinv.offset_lt hlt
  rw [body_eq hopen]
  set n := s.bytesToFit buffers maxDatagramSize areas.flatten.length with hn
  set P := maxDatagramSize - sizeofHeader
  have hP : maxDatagramSize - (sizeofHeader + areas.flatten.length) = P - areas.flatten.length := by
    omega
  rw [bytesToFit, hP] at hn
  have hpos : 0 < n := by omega
  have harea : s.nextArea buffers n =
      ((buffers.getD s.bufferIndex []).drop s.offsetInCurrentBuffer).take n := rfl
  have hlength : (s.nextArea buffers n).length = n := by
    rw [harea, List.length_take, List.length_drop]
    omega
  have hposition : (s.consumed buffers).length = pieces.length * P + areas.flatten.length := by
    rw [← hconsumed, List.length_append, length_flatten_of_full hfull, List.length_map]
  have hnext := congrArg List.length
    (consumed_advance hlt (n := n) (fragmentList host magic messageId num len
      (pieces ++ [areas ++ [s.nextArea buffers n]])))
  rw [List.length_append, hlength] at hnext
  refine ⟨fun pieces' hpieces' => ?_, fun hinside => ?_⟩
  · rw [datagramList_advance] at hpieces'
    have heq : pieces ++ [areas ++ [s.nextArea buffers n]] = pieces' :=
      pieces_eq_of_fragmentList hpieces'
    have hslice : slices buffers (s.consumed buffers).length ((s.consumed buffers).length + n) =
        [s.nextArea buffers n] :=
      slices_inside hpos (by omega) (length_consumed hoffset)
    rw [← heq, hnext, ← hslice]
    change InWindows P buffers _ _
    have hbegun : pieces.length * P ≤ (s.consumed buffers).length := by omega
    have hwithin : (s.consumed buffers).length + n ≤ (pieces.length + 1) * P := by
      rw [Nat.succ_mul]
      omega
    exact inWindows_extend hbegun (Nat.le_add_right _ _) hwithin
      (h.boundary hoffset hposition hroom) (h.inWindows_open hlist hposition)
  · have hnotEnd : s.offsetInCurrentBuffer + n < (buffers.getD s.bufferIndex []).length := by
      by_contra hend
      rw [advance, if_pos (Nat.not_lt.mp hend)] at hinside
      exact absurd hinside (Nat.lt_irrefl 0)
    have hblock : areas.flatten.length + n = P := by omega
    rw [hnext, hposition, Nat.add_assoc, hblock]
    exact Nat.dvd_add (Nat.dvd_mul_left P _) (Nat.dvd_refl P)

theorem eq_slices_of_run (hsize : sizeofHeader < maxDatagramSize)
    (hbuffers : ∀ b ∈ buffers, 0 < b.length) {n : ℕ} {s' : FragmentLoop}
    (hrun : While.run (fragmentLoopCondition buffers)
      (fragmentLoopBody host buffers maxDatagramSize magic messageId) n
      { datagramList := [fragmentInfoDatagram host magic messageId num len] } = some s')
    {num' len' : UInt32} {pieces : List (List (List UInt8))}
    (hlist : s'.datagramList = fragmentList host magic messageId num' len' pieces) :
    ∀ j (hj : j < pieces.length), pieces[j] =
      slices buffers (j * (maxDatagramSize - sizeofHeader))
        ((j + 1) * (maxDatagramSize - sizeofHeader)) := by
  obtain ⟨⟨hinv, hgathers⟩, hcond⟩ := While.invariant_of_run
    (I := fun s => s.Invariant host magic messageId num len buffers maxDatagramSize ∧
      s.Gathers host magic messageId num len buffers maxDatagramSize)
    (fun s hs hc => by
      rw [condition_eq] at hc
      exact ⟨(invariant_body hsize hbuffers hs.1 (of_decide_eq_true hc)).1,
        gathers_body hsize hs.1 hs.2 (of_decide_eq_true hc)⟩)
    ⟨invariant_init hbuffers host magic messageId num len maxDatagramSize,
      gathers_init host magic messageId num len buffers maxDatagramSize⟩ hrun
  obtain ⟨pieces', hlist', -⟩ := hinv.exists_pieces
  obtain rfl : pieces = pieces' := pieces_eq_of_fragmentList (hlist.symm.trans hlist')
  intro j hj
  rw [hgathers.inWindows pieces hlist' j hj, hinv.consumed_eq hcond, slices_min_length]

end FragmentLoop

/-! ## Datagram lists -/

section Lists

variable {host : ByteOrder} {magic : Magic} {buffers : List (List UInt8)} {maxDatagramSize : ℕ}

theorem run_of_createFragmentedDatagramList {rng rng' : Xorshf96} {datagrams : DatagramList}
    (h : createFragmentedDatagramList host buffers maxDatagramSize magic rng =
      .ok (datagrams, rng')) :
    ∃ (num : UInt32) (s' : FragmentLoop),
      While.run (fragmentLoopCondition buffers)
          (fragmentLoopBody host buffers maxDatagramSize magic (xorshf96 rng).1)
          (buffers.map List.length).sum
          { datagramList :=
              [fragmentInfoDatagram host magic (xorshf96 rng).1 num (totalSize32 buffers)] } =
        some s' ∧ s'.datagramList = datagrams := by
  unfold createFragmentedDatagramList at h
  simp only at h
  rcases hneeded : neededFragmentCount (totalSize32 buffers)
      (payloadBytesPerDatagram maxDatagramSize) with e | num
  · rw [hneeded] at h
    cases h
  · rw [hneeded] at h
    simp only [bind, Except.bind] at h
    split at h
    · rename_i s' hrun
      cases h
      exact ⟨num, s', hrun, rfl⟩
    · cases h

/-- Areas of a fragment: fragment `j` of a message gathers one area for each user buffer with a byte
in block `j`. -/
theorem eq_slices_of_createDatagramList {rng rng' : Xorshf96} {num len : UInt32}
    {pieces : List (List (List UInt8))} (hsize : sizeofHeader < maxDatagramSize)
    (hfits : ¬ (UInt64.ofNat buffers.flatten.length + 24).toNat ≤ maxDatagramSize)
    (h : createDatagramList host buffers maxDatagramSize magic rng =
      .ok (fragmentList host magic (xorshf96 rng).1 num len pieces, rng')) :
    ∀ j (hj : j < pieces.length), pieces[j] =
      slices buffers (j * (maxDatagramSize - sizeofHeader))
        ((j + 1) * (maxDatagramSize - sizeofHeader)) := by
  have hpos : ∀ b ∈ buffers.filter (fun buffer => 0 < buffer.length), 0 < b.length :=
    fun b hb => of_decide_eq_true (List.mem_filter.mp hb).2
  unfold createDatagramList at h
  rw [if_neg (Nat.not_le.mpr hsize)] at h
  simp only [totalSize64_eq, flatten_filter_length_pos] at h
  rw [if_neg hfits] at h
  obtain ⟨num', s', hrun, hlist⟩ := run_of_createFragmentedDatagramList h
  intro j hj
  rw [FragmentLoop.eq_slices_of_run hsize hpos hrun hlist j hj, slices_filter]

end Lists

end Ecaludp
