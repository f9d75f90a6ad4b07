import Ecaludp.DatagramBuilder
import Ecaludp.Lib.Blocks

/-!
# What the builder puts on the wire

The fragmentation loop walks through the user buffers with two cursors and fills one datagram after
the other. Its invariant (`FragmentLoop.Invariant`) is that the datagrams built so far carry the
bytes consumed so far, cut into blocks of the payload size; every iteration consumes at least one
byte. `createDatagramList_wire` is the result: an unfragmented datagram, or an info and the blocks
of the message, in the wire format of any host.
-/

namespace Ecaludp

open ByteOrder Blocks

/-! ## Sizes -/

theorem totalSize32_eq (buffers : List (List UInt8)) :
    totalSize32 buffers = UInt32.ofNat buffers.flatten.length := by
  have hfold : ∀ total : UInt32,
      buffers.foldl (fun total buffer => total + UInt32.ofNat buffer.length) total =
        total + UInt32.ofNat buffers.flatten.length := by
    induction buffers with
    | nil => intro total; simp
    | cons b bs ih =>
      intro total
      rw [List.foldl_cons, ih, List.flatten_cons, List.length_append, UInt32.ofNat_add,
        UInt32.add_assoc]
  rw [totalSize32, hfold, UInt32.zero_add]

theorem totalSize64_eq (buffers : List (List UInt8)) :
    totalSize64 buffers = UInt64.ofNat buffers.flatten.length := by
  have hfold : ∀ total : UInt64,
      buffers.foldl (fun total buffer => total + UInt64.ofNat buffer.length) total =
        total + UInt64.ofNat buffers.flatten.length := by
    induction buffers with
    | nil => intro total; simp
    | cons b bs ih =>
      intro total
      rw [List.foldl_cons, ih, List.flatten_cons, List.length_append, UInt64.ofNat_add,
        UInt64.add_assoc]
  rw [totalSize64, hfold, UInt64.zero_add]

theorem flatten_filter_length_pos (buffers : List (List UInt8)) :
    (buffers.filter fun buffer => 0 < buffer.length).flatten = buffers.flatten := by
  induction buffers with
  | nil => rfl
  | cons b bs ih =>
    cases b with
    | nil => simpa using ih
    | cons x b => simpa using ih

/-! ## Fragments -/

section Fragments

variable (host : ByteOrder) (magic : Magic) (messageId : UInt32)

/-- The datagram of fragment `j` that gathers the given areas. -/
def fragmentOf (j : ℕ) (areas : List (List UInt8)) : DatagramDescription where
  header := fillHeader host magic .fragment messageId (UInt32.ofNat j)
    (UInt32.ofNat areas.flatten.length)
  asioBufferList := .headerBuffer :: areas.map .userBuffer

/-- An info followed by the fragments that gather the given areas. -/
def fragmentList (num len : UInt32) (pieces : List (List (List UInt8))) : DatagramList :=
  fragmentInfoDatagram host magic messageId num len ::
    pieces.mapIdx (fragmentOf host magic messageId)

theorem store_fillHeader (type : DatagramType) (id num len : UInt32) :
    (fillHeader host magic type id num len).store host = wireHeader magic type id.toInt32 num len :=
  store_of_htole32 host magic type id num len

theorem flatMap_userBuffer (header : Header) (areas : List (List UInt8)) :
    DatagramDescription.serialise host ⟨header, .headerBuffer :: areas.map .userBuffer⟩ =
      header.store host ++ areas.flatten := by
  unfold DatagramDescription.serialise
  rw [List.flatMap_cons, List.flatMap_map, List.flatMap_id']

theorem serialise_fragmentOf (j : ℕ) (areas : List (List UInt8)) :
    (fragmentOf host magic messageId j areas).serialise host =
      wireHeader magic .fragment messageId.toInt32 (UInt32.ofNat j)
        (UInt32.ofNat areas.flatten.length) ++ areas.flatten := by
  rw [fragmentOf, flatMap_userBuffer, store_fillHeader]

theorem size_fragmentOf (j : ℕ) (areas : List (List UInt8)) :
    (fragmentOf host magic messageId j areas).size = sizeofHeader + areas.flatten.length := by
  unfold DatagramDescription.size fragmentOf
  rw [List.map_cons, List.sum_cons, List.map_map, List.length_flatten]
  rfl

theorem addUserBuffer_fragmentOf (j : ℕ) (areas : List (List UInt8)) (bytes : List UInt8) :
    addUserBuffer host bytes (fragmentOf host magic messageId j areas) =
      fragmentOf host magic messageId j (areas ++ [bytes]) := by
  unfold addUserBuffer fragmentOf fillHeader
  simp only
  rw [le32toh_htole32, ← UInt32.ofNat_add, List.flatten_append, List.length_append,
    List.flatten_singleton, List.map_append]
  rfl

theorem newFragment_eq (j : ℕ) :
    newFragment host magic messageId (UInt32.ofNat j) = fragmentOf host magic messageId j [] := rfl

theorem fragmentList_concat (num len : UInt32) (pieces : List (List (List UInt8)))
    (areas : List (List UInt8)) :
    fragmentList host magic messageId num len (pieces ++ [areas]) =
      fragmentList host magic messageId num len pieces ++
        [fragmentOf host magic messageId pieces.length areas] := by
  unfold fragmentList
  rw [List.mapIdx_concat, List.cons_append]

theorem length_fragmentList (num len : UInt32) (pieces : List (List (List UInt8))) :
    (fragmentList host magic messageId num len pieces).length = pieces.length + 1 := by
  unfold fragmentList
  rw [List.length_cons, List.length_mapIdx]

end Fragments

/-! ## The fragmentation loop -/

namespace FragmentLoop

variable {host : ByteOrder} {magic : Magic} {messageId num len : UInt32}
  {buffers : List (List UInt8)} {maxDatagramSize : ℕ} {s : FragmentLoop}

/-- The bytes in front of the cursors. -/
def consumed (buffers : List (List UInt8)) (s : FragmentLoop) : List UInt8 :=
  (buffers.take s.bufferIndex).flatten ++
    (buffers.getD s.bufferIndex []).take s.offsetInCurrentBuffer

/-- The datagrams carry the consumed bytes in blocks of the payload size, and the cursors are in
front of a byte or at the end. -/
structure Invariant (host : ByteOrder) (magic : Magic) (messageId num len : UInt32)
    (buffers : List (List UInt8)) (maxDatagramSize : ℕ) (s : FragmentLoop) : Prop where
  exists_pieces : ∃ pieces : List (List (List UInt8)),
    s.datagramList = fragmentList host magic messageId num len pieces ∧
      Cut (maxDatagramSize - sizeofHeader) (pieces.map List.flatten) ∧
      (pieces.map List.flatten).flatten = s.consumed buffers
  bufferIndex_le : s.bufferIndex ≤ buffers.length
  offset_lt : s.bufferIndex < buffers.length →
    s.offsetInCurrentBuffer < (buffers.getD s.bufferIndex []).length
  offset_eq : s.bufferIndex = buffers.length → s.offsetInCurrentBuffer = 0

theorem condition_eq (buffers : List (List UInt8)) (s : FragmentLoop) :
    fragmentLoopCondition buffers s = decide (s.bufferIndex < buffers.length) := by
  unfold fragmentLoopCondition
  by_cases hlt : s.bufferIndex < buffers.length
  · rw [decide_eq_true hlt, Bool.true_or]
  · have hget : buffers.getD s.bufferIndex [] = [] := List.getD_eq_default _ _ (Nat.not_lt.mp hlt)
    rw [decide_eq_false hlt, hget, List.length_nil, decide_eq_false (Nat.not_lt_zero _),
      Bool.and_false, Bool.or_false]

/-- After the new datagram, if one is needed, the last one is not full. -/
theorem exists_open_fragment (hsize : sizeofHeader < maxDatagramSize)
    (h : s.Invariant host magic messageId num len buffers maxDatagramSize) :
    ∃ (pieces : List (List (List UInt8))) (areas : List (List UInt8)),
      (if s.datagramList.length ≤ 1 || maxDatagramSize ≤ s.datagramList.back.size then
        s.datagramList ++
          [newFragment host magic messageId (UInt32.ofNat (s.datagramList.length + 1 - 2))]
      else s.datagramList) = fragmentList host magic messageId num len (pieces ++ [areas]) ∧
      (s.datagramList = fragmentList host magic messageId num len (pieces ++ [areas]) ∨
        s.datagramList = fragmentList host magic messageId num len pieces ∧ areas = []) ∧
      (∀ b ∈ pieces.map List.flatten, b.length = maxDatagramSize - sizeofHeader) ∧
      areas.flatten.length < maxDatagramSize - sizeofHeader ∧
      (pieces.map List.flatten).flatten ++ areas.flatten = s.consumed buffers := by
  obtain ⟨pieces, hlist, hcut, hconsumed⟩ := h.exists_pieces
  have hnew : s.datagramList ++
      [newFragment host magic messageId (UInt32.ofNat (s.datagramList.length + 1 - 2))] =
        fragmentList host magic messageId num len (pieces ++ [[]]) := by
    have hnum : pieces.length + 1 + 1 - 2 = pieces.length := by omega
    rw [fragmentList_concat, hlist, length_fragmentList, hnum, newFragment_eq]
  rcases List.eq_nil_or_concat' pieces with rfl | ⟨init, areas, rfl⟩
  · refine ⟨[], [], ?_, Or.inr ⟨hlist, rfl⟩, by simp, ?_, hconsumed⟩
    · rw [if_pos]
      · exact hnew
      · rw [hlist, length_fragmentList]
        simp
    · rw [List.flatten_nil, List.length_nil]
      omega
  · rw [List.map_append, List.map_singleton] at hcut
    obtain ⟨hfull, hpos, hle⟩ := cut_concat.mp hcut
    have hback : s.datagramList.back.size = sizeofHeader + areas.flatten.length := by
      rw [hlist, fragmentList_concat, DatagramList.back_append, size_fragmentOf]
    have hone : ¬ s.datagramList.length ≤ 1 := by
      rw [hlist, length_fragmentList, List.length_append, List.length_singleton]
      omega
    by_cases hlast : maxDatagramSize ≤ s.datagramList.back.size
    · refine ⟨init ++ [areas], [], ?_, Or.inr ⟨hlist, rfl⟩, ?_, ?_, ?_⟩
      · rw [if_pos (by simp [hlast])]
        exact hnew
      · intro b hb
        rw [List.map_append, List.map_singleton] at hb
        rcases List.mem_append.mp hb with hb | hb
        · exact hfull b hb
        · rw [List.mem_singleton.mp hb]
          omega
      · rw [List.flatten_nil, List.length_nil]
        omega
      · rw [List.flatten_nil, List.append_nil]
        exact hconsumed
    · refine ⟨init, areas, ?_, Or.inl hlist, hfull, by omega, ?_⟩
      · rw [if_neg (by simp [hlast, hone])]
        exact hlist
      · rw [← hconsumed, List.map_append, List.flatten_append, List.map_singleton,
          List.flatten_singleton]

/-- The number of bytes an iteration appends to a datagram that holds `filled` bytes. -/
def bytesToFit (buffers : List (List UInt8)) (maxDatagramSize filled : ℕ) (s : FragmentLoop) : ℕ :=
  min (maxDatagramSize - (sizeofHeader + filled))
    ((buffers.getD s.bufferIndex []).length - s.offsetInCurrentBuffer)

/-- The cursors after `n` more bytes of the current buffer. -/
def advance (buffers : List (List UInt8)) (n : ℕ) (datagramList : DatagramList) (s : FragmentLoop) :
    FragmentLoop :=
  if s.offsetInCurrentBuffer + n ≥ (buffers.getD s.bufferIndex []).length then
    ⟨datagramList, s.bufferIndex + 1, 0⟩
  else ⟨datagramList, s.bufferIndex, s.offsetInCurrentBuffer + n⟩

@[simp] theorem datagramList_advance (buffers : List (List UInt8)) (n : ℕ)
    (datagramList : DatagramList) (s : FragmentLoop) :
    (s.advance buffers n datagramList).datagramList = datagramList := by
  unfold advance
  split_ifs <;> rfl

/-- The next `n` bytes of the current buffer. -/
def nextArea (buffers : List (List UInt8)) (n : ℕ) (s : FragmentLoop) : List UInt8 :=
  ((buffers.getD s.bufferIndex []).drop s.offsetInCurrentBuffer).take n

theorem body_eq {pieces : List (List (List UInt8))} {areas : List (List UInt8)}
    (hopen : (if s.datagramList.length ≤ 1 || maxDatagramSize ≤ s.datagramList.back.size then
        s.datagramList ++
          [newFragment host magic messageId (UInt32.ofNat (s.datagramList.length + 1 - 2))]
      else s.datagramList) = fragmentList host magic messageId num len (pieces ++ [areas])) :
    fragmentLoopBody host buffers maxDatagramSize magic messageId s =
      s.advance buffers (s.bytesToFit buffers maxDatagramSize areas.flatten.length)
        (fragmentList host magic messageId num len (pieces ++ [areas ++
          [s.nextArea buffers (s.bytesToFit buffers maxDatagramSize areas.flatten.length)]])) := by
  unfold fragmentLoopBody
  simp only
  rw [hopen, fragmentList_concat, DatagramList.back_append, DatagramList.modifyBack_append,
    size_fragmentOf, addUserBuffer_fragmentOf, ← fragmentList_concat]
  rfl

theorem consumed_advance {n : ℕ} (hlt : s.bufferIndex < buffers.length)
    (datagramList : DatagramList) :
    (s.advance buffers n datagramList).consumed buffers =
      s.consumed buffers ++ s.nextArea buffers n := by
  have htake : (buffers.getD s.bufferIndex []).take (s.offsetInCurrentBuffer + n) =
      (buffers.getD s.bufferIndex []).take s.offsetInCurrentBuffer ++ s.nextArea buffers n :=
    List.take_add
  have hget : buffers.getD s.bufferIndex [] = buffers[s.bufferIndex] := List.getD_eq_getElem _ _ hlt
  unfold advance
  split_ifs with hend
  · have hall : (buffers.getD s.bufferIndex []).take (s.offsetInCurrentBuffer + n) =
        buffers.getD s.bufferIndex [] := List.take_of_length_le hend
    unfold consumed
    simp only
    rw [List.take_zero, List.append_nil, List.append_assoc, ← htake, hall, hget,
      List.take_succ_eq_append_getElem hlt, List.flatten_append, List.flatten_singleton]
  · unfold consumed
    simp only
    rw [List.append_assoc, ← htake]

theorem cursors_advance {n : ℕ} (hbuffers : ∀ b ∈ buffers, 0 < b.length)
    (hlt : s.bufferIndex < buffers.length) (datagramList : DatagramList) :
    (s.advance buffers n datagramList).bufferIndex ≤ buffers.length ∧
      ((s.advance buffers n datagramList).bufferIndex < buffers.length →
        (s.advance buffers n datagramList).offsetInCurrentBuffer <
          (buffers.getD (s.advance buffers n datagramList).bufferIndex []).length) ∧
      ((s.advance buffers n datagramList).bufferIndex = buffers.length →
        (s.advance buffers n datagramList).offsetInCurrentBuffer = 0) := by
  unfold advance
  split_ifs with hend
  · refine ⟨hlt, fun hnext => ?_, fun _ => rfl⟩
    rw [List.getD_eq_getElem _ _ hnext]
    exact hbuffers _ (List.getElem_mem hnext)
  · exact ⟨Nat.le_of_lt hlt, fun _ => Nat.not_le.mp hend, fun heq => absurd heq (Nat.ne_of_lt hlt)⟩

/-- One iteration keeps the invariant and consumes at least one byte. -/
theorem invariant_body (hsize : sizeofHeader < maxDatagramSize)
    (hbuffers : ∀ b ∈ buffers, 0 < b.length)
    (h : s.Invariant host magic messageId num len buffers maxDatagramSize)
    (hlt : s.bufferIndex < buffers.length) :
    (fragmentLoopBody host buffers maxDatagramSize magic messageId s).Invariant
        host magic messageId num len buffers maxDatagramSize ∧
      (s.consumed buffers).length <
        ((fragmentLoopBody host buffers maxDatagramSize magic messageId s).consumed
          buffers).length := by
  obtain ⟨pieces, areas, hopen, -, hfull, hroom, hconsumed⟩ := exists_open_fragment hsize h
  have hoffset := h.offset_lt hlt
  rw [body_eq hopen]
  set n := s.bytesToFit buffers maxDatagramSize areas.flatten.length
  have hn₁ : n ≤ maxDatagramSize - (sizeofHeader + areas.flatten.length) := Nat.min_le_left _ _
  have hn₂ : n ≤ (buffers.getD s.bufferIndex []).length - s.offsetInCurrentBuffer :=
    Nat.min_le_right _ _
  have hpos : 0 < n := Nat.lt_min.mpr ⟨by omega, by omega⟩
  have harea : (s.nextArea buffers n).length = n := by
    rw [nextArea, List.length_take, List.length_drop]
    omega
  have hnext := consumed_advance hlt (n := n) (fragmentList host magic messageId num len
    (pieces ++ [areas ++ [s.nextArea buffers n]]))
  obtain ⟨hle, hinside, hend⟩ := cursors_advance (n := n) hbuffers hlt
    (fragmentList host magic messageId num len (pieces ++ [areas ++ [s.nextArea buffers n]]))
  refine ⟨⟨⟨pieces ++ [areas ++ [s.nextArea buffers n]], ?_, ?_, ?_⟩, hle, hinside, hend⟩, ?_⟩
  · exact datagramList_advance _ _ _ _
  · rw [List.map_append, List.map_singleton]
    refine cut_concat.mpr ⟨hfull, ?_, ?_⟩ <;>
      rw [List.flatten_append, List.flatten_singleton, List.length_append, harea] <;> omega
  · rw [hnext, ← hconsumed, List.map_append, List.map_singleton, List.flatten_append,
      List.flatten_singleton, List.flatten_append, List.flatten_singleton, List.append_assoc]
  · rw [hnext, List.length_append, harea]
    omega

theorem consumed_le (buffers : List (List UInt8)) (s : FragmentLoop) :
    (s.consumed buffers).length ≤ buffers.flatten.length := by
  have hsplit : buffers.flatten =
      (buffers.take s.bufferIndex).flatten ++ (buffers.drop s.bufferIndex).flatten := by
    rw [← List.flatten_append, List.take_append_drop]
  have hget : (buffers.getD s.bufferIndex []).length ≤
      (buffers.drop s.bufferIndex).flatten.length := by
    by_cases hlt : s.bufferIndex < buffers.length
    · rw [List.getD_eq_getElem _ _ hlt, List.drop_eq_getElem_cons hlt, List.flatten_cons,
        List.length_append]
      omega
    · rw [List.getD_eq_default _ _ (Nat.not_lt.mp hlt)]
      exact Nat.zero_le _
  rw [hsplit, consumed, List.length_append, List.length_append, List.length_take]
  omega

/-- The number of bytes behind the cursors. -/
def remaining (buffers : List (List UInt8)) (s : FragmentLoop) : ℕ :=
  buffers.flatten.length - (s.consumed buffers).length

theorem invariant_init (hbuffers : ∀ b ∈ buffers, 0 < b.length) (host : ByteOrder) (magic : Magic)
    (messageId num len : UInt32) (maxDatagramSize : ℕ) :
    Invariant host magic messageId num len buffers maxDatagramSize
      { datagramList := [fragmentInfoDatagram host magic messageId num len] } := by
  refine ⟨⟨[], rfl, cut_nil, rfl⟩, Nat.zero_le _, fun hlt => ?_, fun _ => rfl⟩
  rw [List.getD_eq_getElem _ _ hlt]
  exact hbuffers _ (List.getElem_mem hlt)

theorem Invariant.consumed_eq (h : s.Invariant host magic messageId num len buffers maxDatagramSize)
    (hcond : fragmentLoopCondition buffers s = false) : s.consumed buffers = buffers.flatten := by
  rw [condition_eq] at hcond
  have hindex : s.bufferIndex = buffers.length :=
    Nat.le_antisymm h.bufferIndex_le (Nat.not_lt.mp (of_decide_eq_false hcond))
  rw [consumed, h.offset_eq hindex, hindex, List.take_zero, List.append_nil, List.take_length]

/-- The loop ends with every byte in a datagram. -/
theorem run_eq (hsize : sizeofHeader < maxDatagramSize) (hbuffers : ∀ b ∈ buffers, 0 < b.length)
    (host : ByteOrder) (magic : Magic) (messageId num len : UInt32) :
    ∃ (s' : FragmentLoop) (pieces : List (List (List UInt8))),
      While.run (fragmentLoopCondition buffers)
          (fragmentLoopBody host buffers maxDatagramSize magic messageId)
          (buffers.map List.length).sum
          { datagramList := [fragmentInfoDatagram host magic messageId num len] } = some s' ∧
        s'.datagramList = fragmentList host magic messageId num len pieces ∧
        Cut (maxDatagramSize - sizeofHeader) (pieces.map List.flatten) ∧
        (pieces.map List.flatten).flatten = buffers.flatten := by
  have hbody : ∀ s, s.Invariant host magic messageId num len buffers maxDatagramSize →
      fragmentLoopCondition buffers s = true →
      (fragmentLoopBody host buffers maxDatagramSize magic messageId s).Invariant
          host magic messageId num len buffers maxDatagramSize ∧
        (fragmentLoopBody host buffers maxDatagramSize magic messageId s).remaining buffers <
          s.remaining buffers := by
    intro s hs hcond
    rw [condition_eq] at hcond
    obtain ⟨hinv, hlt⟩ := invariant_body hsize hbuffers hs (of_decide_eq_true hcond)
    have hle := consumed_le buffers
      (fragmentLoopBody host buffers maxDatagramSize magic messageId s)
    exact ⟨hinv, Nat.sub_lt_sub_left (Nat.lt_of_lt_of_le hlt hle) hlt⟩
  obtain ⟨s', hrun, hinv, hcond⟩ := While.run_of_variant (V := remaining buffers) hbody
    (buffers.map List.length).sum _
    (invariant_init hbuffers host magic messageId num len maxDatagramSize) (by
      rw [← List.length_flatten]
      exact Nat.sub_le _ _)
  obtain ⟨pieces, hlist, hcut, hconsumed⟩ := hinv.exists_pieces
  exact ⟨s', pieces, hrun, hlist, hcut, hconsumed.trans (hinv.consumed_eq hcond)⟩

end FragmentLoop

/-! ## The number of fragments -/

section Count

variable {maxDatagramSize : ℕ}

/-- The payload size as the code computes it, where it does not exceed 32 bits. -/
theorem toNat_payloadBytesPerDatagram (hsize : sizeofHeader < maxDatagramSize)
    (hpayload : maxDatagramSize - sizeofHeader < 2 ^ 32) :
    (payloadBytesPerDatagram maxDatagramSize).toUInt32.toNat = maxDatagramSize - sizeofHeader := by
  unfold sizeofHeader at hsize hpayload ⊢
  rw [payloadBytesPerDatagram, UInt32.toUInt32_toInt32, UInt32.toNat_sub, UInt32.toNat_ofNat']
  simp only [UInt32.reduceToNat]
  omega

theorem payloadBytesPerDatagram_eq_minValue (hsize : sizeofHeader < maxDatagramSize)
    (hpayload : maxDatagramSize - sizeofHeader < 2 ^ 32) :
    payloadBytesPerDatagram maxDatagramSize = Int32.minValue ↔
      maxDatagramSize - sizeofHeader = 2 ^ 31 := by
  have htoNat : Int32.minValue.toUInt32.toNat = 2 ^ 31 := by decide
  rw [← toNat_payloadBytesPerDatagram hsize hpayload, ← htoNat, UInt32.toNat_inj]
  refine ⟨congrArg _, fun h => ?_⟩
  rw [← Int32.toInt32_toUInt32 (payloadBytesPerDatagram maxDatagramSize), h, Int32.toInt32_toUInt32]

theorem payloadBytesPerDatagram_ne_zero (hsize : sizeofHeader < maxDatagramSize)
    (hpayload : maxDatagramSize - sizeofHeader < 2 ^ 32) :
    payloadBytesPerDatagram maxDatagramSize ≠ 0 := by
  intro h
  have hP := toNat_payloadBytesPerDatagram hsize hpayload
  rw [h, show (0 : Int32).toUInt32.toNat = 0 from by decide] at hP
  omega

/-- One less than the payload size, the other operand of the sum in the fragment count. -/
theorem toNat_payloadBytesPerDatagram_sub_one (hsize : sizeofHeader < maxDatagramSize)
    (hpayload : maxDatagramSize - sizeofHeader < 2 ^ 32) :
    (payloadBytesPerDatagram maxDatagramSize - 1).toUInt32.toNat =
      maxDatagramSize - sizeofHeader - 1 := by
  rw [Int32.toUInt32_sub, UInt32.toNat_sub, toNat_payloadBytesPerDatagram hsize hpayload,
    show (1 : Int32).toUInt32.toNat = 1 from by decide]
  omega

/-- The number of fragments that the info announces. -/
theorem neededFragmentCount_eq (totalSize : UInt32) (hsize : sizeofHeader < maxDatagramSize)
    (hpayload : maxDatagramSize - sizeofHeader < 2 ^ 32)
    (hmin : maxDatagramSize - sizeofHeader ≠ 2 ^ 31) :
    ∃ num : UInt32, neededFragmentCount totalSize (payloadBytesPerDatagram maxDatagramSize) =
        .ok num ∧
      num.toNat = (totalSize.toNat + (maxDatagramSize - sizeofHeader - 1)) % 2 ^ 32 /
        (maxDatagramSize - sizeofHeader) := by
  have hmin' := (payloadBytesPerDatagram_eq_minValue hsize hpayload).not.mpr hmin
  have hzero := payloadBytesPerDatagram_ne_zero hsize hpayload
  refine ⟨_, by rw [neededFragmentCount, if_neg hmin', if_neg hzero], ?_⟩
  rw [UInt32.toNat_div, UInt32.toNat_add, toNat_payloadBytesPerDatagram_sub_one hsize hpayload,
    toNat_payloadBytesPerDatagram hsize hpayload]

end Count

/-! ## Datagram lists -/

section Lists

variable {host : ByteOrder} {magic : Magic} {buffers : List (List UInt8)} {maxDatagramSize : ℕ}

/-- The wire format of fragment `j`. -/
def wireFragment (magic : Magic) (messageId : UInt32) (j : ℕ) (payload : List UInt8) : List UInt8 :=
  wireHeader magic .fragment messageId.toInt32 (UInt32.ofNat j) (UInt32.ofNat payload.length) ++
    payload

/-- The wire format of an unfragmented message. -/
def wireNonFragmented (magic : Magic) (payload : List UInt8) : List UInt8 :=
  wireHeader magic .nonFragmentedMessage (-1) 1 (UInt32.ofNat payload.length) ++ payload

theorem serialise_fragmentInfoDatagram (host : ByteOrder) (magic : Magic)
    (messageId num len : UInt32) :
    (fragmentInfoDatagram host magic messageId num len).serialise host =
      wireHeader magic .fragmentedMessageInfo messageId.toInt32 num len := by
  refine (flatMap_userBuffer host _ []).trans ?_
  rw [store_fillHeader, List.flatten_nil, List.append_nil]

theorem serialise_fragmentList (messageId num len : UInt32) (pieces : List (List (List UInt8))) :
    (fragmentList host magic messageId num len pieces).map (DatagramDescription.serialise host) =
      wireHeader magic .fragmentedMessageInfo messageId.toInt32 num len ::
        (pieces.map List.flatten).mapIdx (wireFragment magic messageId) := by
  rw [fragmentList, List.map_cons, serialise_fragmentInfoDatagram]
  congr 1
  refine List.ext_getElem (by simp) fun j h₁ h₂ => ?_
  rw [List.getElem_map, List.getElem_mapIdx, List.getElem_mapIdx, List.getElem_map]
  exact serialise_fragmentOf host magic messageId j _

/-- A fragment carries at least one byte and at most a block. -/
theorem length_serialise_of_mem_fragments {messageId : UInt32} {blockSize : ℕ}
    {pieces : List (List (List UInt8))} (hcut : Cut blockSize (pieces.map List.flatten))
    {d : DatagramDescription} (hd : d ∈ pieces.mapIdx (fragmentOf host magic messageId)) :
    sizeofHeader < (d.serialise host).length ∧
      (d.serialise host).length ≤ sizeofHeader + blockSize := by
  obtain ⟨j, hj, rfl⟩ := List.mem_mapIdx.mp hd
  have hmem : pieces[j].flatten ∈ pieces.map List.flatten :=
    List.mem_map_of_mem (List.getElem_mem hj)
  have hpos := hcut.pos _ hmem
  have hle := hcut.le _ hmem
  rw [serialise_fragmentOf, List.length_append, length_wireHeader]
  omega

theorem serialise_createNonFragmentedDatagram (host : ByteOrder) (buffers : List (List UInt8))
    (magic : Magic) :
    (createNonFragmentedDatagram host buffers magic).serialise host =
      wireNonFragmented magic buffers.flatten := by
  rw [createNonFragmentedDatagram, flatMap_userBuffer, store_fillHeader, totalSize32_eq,
    Int32.toInt32_toUInt32]
  rfl

/-- A fragmented list is an info and the fragments that gather the blocks of the message, provided
that the number of fragments can be computed. -/
theorem createFragmentedDatagramList_eq (hsize : sizeofHeader < maxDatagramSize)
    (hbuffers : ∀ b ∈ buffers, 0 < b.length) (host : ByteOrder) (magic : Magic) (rng : Xorshf96)
    {num : UInt32}
    (hnum : neededFragmentCount (UInt32.ofNat buffers.flatten.length)
      (payloadBytesPerDatagram maxDatagramSize) = .ok num) :
    ∃ pieces : List (List (List UInt8)),
      createFragmentedDatagramList host buffers maxDatagramSize magic rng =
        .ok (fragmentList host magic (xorshf96 rng).1 num
          (UInt32.ofNat buffers.flatten.length) pieces, (xorshf96 rng).2) ∧
      Cut (maxDatagramSize - sizeofHeader) (pieces.map List.flatten) ∧
      (pieces.map List.flatten).flatten = buffers.flatten := by
  obtain ⟨s', pieces, hrun, hlist, hcut, hflatten⟩ := FragmentLoop.run_eq hsize hbuffers host magic
    (xorshf96 rng).1 num (UInt32.ofNat buffers.flatten.length)
  refine ⟨pieces, ?_, hcut, hflatten⟩
  unfold createFragmentedDatagramList
  simp only [totalSize32_eq]
  rw [hnum, ← hlist]
  simp only [bind, Except.bind, hrun]
  rfl

/-- The datagrams of a message on the wire: an info and the blocks of the message. -/
structure WireFragmented (magic : Magic) (messageId num : UInt32) (blockSize : ℕ)
    (message : List UInt8) (wire : List (List UInt8)) (payloads : List (List UInt8)) : Prop where
  wire : wire =
    wireHeader magic .fragmentedMessageInfo messageId.toInt32 num (UInt32.ofNat message.length) ::
      payloads.mapIdx (wireFragment magic messageId)
  cut : Cut blockSize payloads
  flatten : payloads.flatten = message

theorem createDatagramList_eq_of_fits (hsize : sizeofHeader < maxDatagramSize)
    (hfits : (UInt64.ofNat buffers.flatten.length + 24).toNat ≤ maxDatagramSize) (host : ByteOrder)
    (magic : Magic) (rng : Xorshf96) :
    createDatagramList host buffers maxDatagramSize magic rng =
      .ok ([createNonFragmentedDatagram host
        (buffers.filter fun buffer => 0 < buffer.length) magic], rng) := by
  have hflatten := flatten_filter_length_pos buffers
  unfold createDatagramList
  rw [if_neg (Nat.not_le.mpr hsize)]
  simp only [totalSize64_eq, hflatten]
  rw [if_pos hfits]

theorem createDatagramList_eq_of_not_fits (hsize : sizeofHeader < maxDatagramSize)
    (hfits : ¬ (UInt64.ofNat buffers.flatten.length + 24).toNat ≤ maxDatagramSize)
    (host : ByteOrder) (magic : Magic) (rng : Xorshf96) :
    (∃ e, neededFragmentCount (UInt32.ofNat buffers.flatten.length)
          (payloadBytesPerDatagram maxDatagramSize) = .error e ∧
        createDatagramList host buffers maxDatagramSize magic rng = .error e) ∨
      ∃ num pieces,
        neededFragmentCount (UInt32.ofNat buffers.flatten.length)
          (payloadBytesPerDatagram maxDatagramSize) = .ok num ∧
        createDatagramList host buffers maxDatagramSize magic rng =
          .ok (fragmentList host magic (xorshf96 rng).1 num (UInt32.ofNat buffers.flatten.length)
            pieces, (xorshf96 rng).2) ∧
        Cut (maxDatagramSize - sizeofHeader) (pieces.map List.flatten) ∧
        (pieces.map List.flatten).flatten = buffers.flatten := by
  have hflatten := flatten_filter_length_pos buffers
  have hpos : ∀ b ∈ buffers.filter (fun buffer => 0 < buffer.length), 0 < b.length :=
    fun b hb => of_decide_eq_true (List.mem_filter.mp hb).2
  unfold createDatagramList
  rw [if_neg (Nat.not_le.mpr hsize)]
  simp only [totalSize64_eq, hflatten]
  rw [if_neg hfits]
  rcases hnum : neededFragmentCount (UInt32.ofNat buffers.flatten.length)
      (payloadBytesPerDatagram maxDatagramSize) with e | num
  · left
    refine ⟨e, rfl, ?_⟩
    unfold createFragmentedDatagramList
    simp only [totalSize32_eq, hflatten]
    rw [hnum]
    rfl
  · right
    obtain ⟨pieces, hlist, hcut, hpieces⟩ :=
      createFragmentedDatagramList_eq hsize hpos host magic rng (by rw [hflatten]; exact hnum)
    rw [hflatten] at hlist hpieces
    exact ⟨num, pieces, rfl, hlist, hcut, hpieces⟩

/-- The builder's descriptions: a list that the builder returns is a single unfragmented datagram,
or an info and the fragments that gather the blocks of the message. -/
theorem eq_of_createDatagramList {rng rng' : Xorshf96} {datagrams : DatagramList}
    (h : createDatagramList host buffers maxDatagramSize magic rng = .ok (datagrams, rng')) :
    sizeofHeader < maxDatagramSize ∧
      ((UInt64.ofNat buffers.flatten.length + 24).toNat ≤ maxDatagramSize ∧ rng' = rng ∧
          datagrams = [createNonFragmentedDatagram host
            (buffers.filter fun buffer => 0 < buffer.length) magic] ∨
        ¬ (UInt64.ofNat buffers.flatten.length + 24).toNat ≤ maxDatagramSize ∧
          rng' = (xorshf96 rng).2 ∧ ∃ num pieces,
            neededFragmentCount (UInt32.ofNat buffers.flatten.length)
              (payloadBytesPerDatagram maxDatagramSize) = .ok num ∧
            datagrams = fragmentList host magic (xorshf96 rng).1 num
              (UInt32.ofNat buffers.flatten.length) pieces ∧
            Cut (maxDatagramSize - sizeofHeader) (pieces.map List.flatten) ∧
            (pieces.map List.flatten).flatten = buffers.flatten) := by
  have hsize : sizeofHeader < maxDatagramSize := by
    by_contra hle
    rw [createDatagramList, if_pos (Nat.not_lt.mp hle)] at h
    cases h
  refine ⟨hsize, ?_⟩
  by_cases hfits : (UInt64.ofNat buffers.flatten.length + 24).toNat ≤ maxDatagramSize
  · left
    rw [createDatagramList_eq_of_fits hsize hfits] at h
    cases h
    exact ⟨hfits, rfl, rfl⟩
  · right
    rcases createDatagramList_eq_of_not_fits hsize hfits host magic rng with
      ⟨e, -, he⟩ | ⟨num, pieces, hnum, hlist, hcut, hflatten⟩
    · rw [h] at he
      cases he
    · rw [h] at hlist
      cases hlist
      exact ⟨hfits, rfl, num, pieces, hnum, rfl, hcut, hflatten⟩

theorem wireFragmented_fragmentList {message : List UInt8} {blockSize : ℕ}
    (messageId num : UInt32) {pieces : List (List (List UInt8))}
    (hcut : Cut blockSize (pieces.map List.flatten))
    (hflatten : (pieces.map List.flatten).flatten = message) :
    WireFragmented magic messageId num blockSize message
      ((fragmentList host magic messageId num (UInt32.ofNat message.length) pieces).map
        (DatagramDescription.serialise host)) (pieces.map List.flatten) :=
  ⟨serialise_fragmentList _ _ _ _, hcut, hflatten⟩

/-- The builder's datagrams: whatever list the builder returns is one of these two. -/
theorem wire_of_createDatagramList {rng rng' : Xorshf96} {datagrams : DatagramList}
    (h : createDatagramList host buffers maxDatagramSize magic rng = .ok (datagrams, rng')) :
    sizeofHeader < maxDatagramSize ∧
      ((UInt64.ofNat buffers.flatten.length + 24).toNat ≤ maxDatagramSize ∧
          datagrams.map (DatagramDescription.serialise host) =
            [wireNonFragmented magic buffers.flatten] ∨
        ¬ (UInt64.ofNat buffers.flatten.length + 24).toNat ≤ maxDatagramSize ∧
          ∃ num payloads,
            neededFragmentCount (UInt32.ofNat buffers.flatten.length)
              (payloadBytesPerDatagram maxDatagramSize) = .ok num ∧
            WireFragmented magic (xorshf96 rng).1 num (maxDatagramSize - sizeofHeader)
              buffers.flatten (datagrams.map (DatagramDescription.serialise host)) payloads) := by
  obtain ⟨hsize, ⟨hfits, -, rfl⟩ | ⟨hfits, -, num, pieces, hnum, rfl, hcut, hflatten⟩⟩ :=
    eq_of_createDatagramList h
  · refine ⟨hsize, Or.inl ⟨hfits, ?_⟩⟩
    rw [List.map_singleton, serialise_createNonFragmentedDatagram, flatten_filter_length_pos]
  · exact ⟨hsize, Or.inr ⟨hfits, num, _, hnum, wireFragmented_fragmentList _ _ hcut hflatten⟩⟩

end Lists

end Ecaludp
