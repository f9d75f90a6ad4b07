import Ecaludp.RoundTrip
import Ecaludp.Reassembly.Provenance

/-!
# Messages of 4 GiB and more

The length field of the info and the fragment count are 32 bits wide, while the fragmentation loop
goes through the whole message. What a receiver can be made to deliver of such a message is put
together from some of its blocks (`delivered_iff_assembled`); it is never the message, and there is
such a selection for some sizes only (`Truncatable`).
-/

namespace Ecaludp

open ByteOrder Blocks Reassembly

/-- The payloads that are sent under the fragment number `i`. -/
def SentAs (payloads : List (List UInt8)) (i : ℕ) (bytes : List UInt8) : Prop :=
  ∃ j, payloads[j]? = some bytes ∧ j % 2 ^ 32 = i

/-! ## Selections of blocks -/

/-- The announced count is exact, or the sum wraps and it is zero. -/
theorem announcedCount_cases {W P : ℕ} (hW : W < 2 ^ 32) (hpositive : 0 < P) (hP : P ≤ 2 ^ 32) :
    W + P ≤ 2 ^ 32 ∧ (W + (P - 1)) % 2 ^ 32 / P = W ⌈/⌉ P ∨
      2 ^ 32 < W + P ∧ (W + (P - 1)) % 2 ^ 32 / P = 0 := by
  rcases Nat.lt_or_ge (2 ^ 32) (W + P) with hwrap | hle
  · right
    refine ⟨hwrap, Nat.div_eq_of_lt ?_⟩
    omega
  · left
    refine ⟨hle, ?_⟩
    rw [Nat.mod_eq_of_lt (by omega), Nat.ceilDiv_eq_add_pred_div, Nat.add_sub_assoc hpositive]

section Selection

variable {P : ℕ} {payloads : List (List UInt8)} {message : List UInt8} {num : UInt32}

theorem eq_message_of_assembled (hcut : Cut P payloads) (hpositive : 0 < P) (hP : P ≤ 2 ^ 32)
    (hflatten : payloads.flatten = message) (hne : message ≠ []) (hlt : message.length < 2 ^ 32)
    (hnum : num.toNat = (message.length % 2 ^ 32 + (P - 1)) % 2 ^ 32 / P) {bytes : List UInt8}
    (h : Assembled num (UInt32.ofNat message.length) (SentAs payloads) bytes) :
    bytes = message := by
  obtain ⟨chunks, hcount, hchunks, rfl, hlength⟩ := h
  have hpos := List.length_pos_iff.mpr hne
  rw [UInt32.toNat_ofNat', Nat.mod_eq_of_lt hlt] at hlength
  rw [Nat.mod_eq_of_lt hlt] at hnum
  rcases announcedCount_cases hlt hpositive hP with ⟨-, hexact⟩ | ⟨-, hzero⟩
  · have hsame : chunks.length = payloads.length := by
      rw [hcount, hnum, hexact, hcut.length_eq_ceilDiv hpositive, hflatten]
    have hbound := num.toNat_lt
    rw [← hflatten]
    congr 1
    apply List.ext_getElem hsame
    intro i hi hi'
    obtain ⟨j, hj, hmod⟩ := hchunks i hi
    obtain ⟨hjlt, hget⟩ := List.getElem?_eq_some_iff.mp hj
    obtain rfl : j = i := by omega
    exact hget.symm
  · rw [hnum, hzero, List.length_eq_zero_iff] at hcount
    rw [hcount, List.flatten_nil, List.length_nil] at hlength
    omega

theorem ne_message_of_assembled (hge : 2 ^ 32 ≤ message.length) {pool : ℕ → List UInt8 → Prop}
    {bytes : List UInt8} (h : Assembled num (UInt32.ofNat message.length) pool bytes) :
    bytes ≠ message := by
  rintro rfl
  obtain ⟨-, -, -, -, hlength⟩ := h
  have := (UInt32.ofNat bytes.length).toNat_lt
  omega

theorem div_eq_of_not_full (hcut : Cut P payloads) (hflatten : payloads.flatten = message) {j : ℕ}
    {bytes : List UInt8} (hj : payloads[j]? = some bytes) (hshort : bytes.length ≠ P) :
    message.length / P = j ∧ bytes.length = message.length % P ∧ bytes.length < P := by
  obtain ⟨hjlt, rfl⟩ := List.getElem?_eq_some_iff.mp hj
  have hlength := hcut.length_getElem hjlt
  have hpos := hcut.pos _ (List.getElem_mem hjlt)
  have hle := hcut.le _ (List.getElem_mem hjlt)
  rw [hflatten] at hlength
  have htotal : message.length = j * P + payloads[j].length := by omega
  have hlt : payloads[j].length < P := by omega
  refine ⟨?_, ?_, hlt⟩
  · rw [htotal, Nat.add_comm, Nat.add_mul_div_right _ _ (by omega), Nat.div_eq_of_lt hlt,
      Nat.zero_add]
  · rw [htotal, Nat.add_comm, Nat.add_mul_mod_self_right, Nat.mod_eq_of_lt hlt]

/-- The sizes from 4 GiB on for which blocks of the announced number make up the announced size:
full blocks only, or full ones with the last block of the message in place of one of them. -/
def SizesMatch (P W T : ℕ) : Prop :=
  W + P ≤ 2 ^ 32 ∧ (P ∣ W ∨ T % P = W % P ∧ T / P % 2 ^ 32 < W ⌈/⌉ P)

theorem sizesMatch_of_assembled (hcut : Cut P payloads) (hpositive : 0 < P) (hP : P ≤ 2 ^ 32)
    (hflatten : payloads.flatten = message)
    (hnum : num.toNat = (message.length % 2 ^ 32 + (P - 1)) % 2 ^ 32 / P) {bytes : List UInt8}
    (h : Assembled num (UInt32.ofNat message.length) (SentAs payloads) bytes) :
    SizesMatch P (message.length % 2 ^ 32) message.length := by
  obtain ⟨chunks, hcount, hchunks, rfl, hlength⟩ := h
  rw [UInt32.toNat_ofNat'] at hlength
  have hW : message.length % 2 ^ 32 < 2 ^ 32 := Nat.mod_lt _ (by decide)
  rcases announcedCount_cases hW hpositive hP with ⟨hle, hexact⟩ | ⟨hwrap, hzero⟩
  · refine ⟨hle, ?_⟩
    by_cases hfull : ∀ b ∈ chunks, b.length = P
    · left
      rw [← hlength, length_flatten_of_full hfull]
      exact Nat.dvd_mul_left P _
    · right
      push Not at hfull
      obtain ⟨b, hb, hshort⟩ := hfull
      obtain ⟨t, ht, rfl⟩ := List.mem_iff_getElem.mp hb
      obtain ⟨j, hj, hmod⟩ := hchunks t ht
      obtain ⟨hdiv, hrem, hlt⟩ := div_eq_of_not_full hcut hflatten hj hshort
      -- any other one that is not full would be the same block
      have hothers : ∀ i (hi : i < chunks.length), i ≠ t → chunks[i].length = P := by
        intro i hi hne
        by_contra hshort'
        obtain ⟨j', hj', hmod'⟩ := hchunks i hi
        obtain ⟨hdiv', -, -⟩ := div_eq_of_not_full hcut hflatten hj' hshort'
        omega
      have hsum := length_flatten_of_full_except ht hothers
      rw [hlength] at hsum
      refine ⟨?_, ?_⟩
      · rw [hsum, Nat.add_comm, Nat.add_mul_mod_self_right, Nat.mod_eq_of_lt hlt, hrem]
      · rw [hdiv, hmod, ← hexact, ← hnum, ← hcount]
        exact ht
  · rw [hnum, hzero, List.length_eq_zero_iff] at hcount
    rw [hcount, List.flatten_nil, List.length_nil] at hlength
    omega

theorem assembled_of_selection (hcut : Cut P payloads) (hpositive : 0 < P)
    (hflatten : payloads.flatten = message) (source : ℕ → ℕ)
    (hsource : ∀ i < num.toNat, source i % 2 ^ 32 = i ∧ source i * P < message.length)
    (hsize : ((List.range num.toNat).map fun i => block P message (source i)).flatten.length =
      message.length % 2 ^ 32) :
    ∃ bytes, Assembled num (UInt32.ofNat message.length) (SentAs payloads) bytes := by
  refine ⟨_, (List.range num.toNat).map fun i => block P message (source i), ?_,
    fun i hi => ?_, rfl, ?_⟩
  · rw [List.length_map, List.length_range]
  · rw [List.length_map, List.length_range] at hi
    obtain ⟨hmod, hlt⟩ := hsource i hi
    have hinside : source i < payloads.length := by
      rw [hcut.length_eq_ceilDiv hpositive, hflatten]
      by_contra hle
      rw [Nat.not_lt, ceilDiv_le_iff_le_mul hpositive, Nat.mul_comm] at hle
      omega
    refine ⟨source i, ?_, hmod⟩
    rw [List.getElem?_eq_getElem hinside, hcut.getElem_eq hinside, hflatten]
    simp
  · rw [hsize, UInt32.toNat_ofNat']

/-- Full blocks only. -/
theorem exists_assembled_of_full (hcut : Cut P payloads) (hpositive : 0 < P)
    (hflatten : payloads.flatten = message) (hfull : num.toNat * P = message.length % 2 ^ 32) :
    ∃ bytes, Assembled num (UInt32.ofNat message.length) (SentAs payloads) bytes := by
  have hinside : ∀ i < num.toNat, (i + 1) * P ≤ message.length := fun i hi =>
    calc (i + 1) * P ≤ num.toNat * P := Nat.mul_le_mul_right P hi
      _ = message.length % 2 ^ 32 := hfull
      _ ≤ message.length := Nat.mod_le _ _
  refine assembled_of_selection hcut hpositive hflatten (fun i => i) (fun i hi => ⟨?_, ?_⟩) ?_
  · exact Nat.mod_eq_of_lt (hi.trans num.toNat_lt)
  · have := hinside i hi
    rw [Nat.succ_mul] at this
    show i * P < message.length
    omega
  · rw [length_flatten_of_full (n := P), List.length_map, List.length_range, hfull]
    intro b hb
    obtain ⟨i, hi, rfl⟩ := List.mem_map.mp hb
    exact length_block_of_le (hinside i (List.mem_range.mp hi))

theorem exists_assembled_of_last (hcut : Cut P payloads) (hpositive : 0 < P)
    (hflatten : payloads.flatten = message) {W : ℕ} (hW : W = message.length % 2 ^ 32)
    (hroom : W + P ≤ message.length) (hsame : message.length % P = W % P) (hpos : 0 < W % P)
    (hcount : num.toNat = W / P + 1) (hplace : message.length / P % 2 ^ 32 < num.toNat) :
    ∃ bytes, Assembled num (UInt32.ofNat message.length) (SentAs payloads) bytes := by
  set T := message.length with hT
  set t := T / P % 2 ^ 32 with ht
  set source : ℕ → ℕ := fun i => if i = t then T / P else i
  have hsource : source t = T / P := if_pos rfl
  have hsource' : ∀ i, i ≠ t → source i = i := fun i hne => if_neg hne
  have hlast : T / P * P + W % P = T := by
    rw [← hsame, Nat.mul_comm]
    exact Nat.div_add_mod T P
  have hfront : W / P * P + W % P = W := by
    rw [Nat.mul_comm]
    exact Nat.div_add_mod W P
  have hinside : ∀ i < num.toNat, (i + 1) * P ≤ T := by
    intro i hi
    have hle : (i + 1) * P ≤ (W / P + 1) * P := Nat.mul_le_mul_right P (hcount ▸ hi)
    rw [Nat.succ_mul (W / P)] at hle
    omega
  refine assembled_of_selection hcut hpositive hflatten source (fun i hi => ?_) ?_
  · have hlt := hinside i hi
    rw [Nat.succ_mul] at hlt
    by_cases heq : i = t
    · rw [heq, hsource]
      exact ⟨rfl, by omega⟩
    · rw [hsource' i heq]
      exact ⟨Nat.mod_eq_of_lt (hi.trans num.toNat_lt), by omega⟩
  · set chunks := (List.range num.toNat).map fun i => block P message (source i) with hchunks
    have hlength : chunks.length = num.toNat := by rw [hchunks, List.length_map, List.length_range]
    have hchunk : ∀ i (hi : i < chunks.length), chunks[i] = block P message (source i) := by
      intro i hi
      simp only [hchunks, List.getElem_map, List.getElem_range]
    have hothers : ∀ i (hi : i < chunks.length), i ≠ t → chunks[i].length = P := by
      intro i hi hne
      rw [hchunk, hsource' i hne]
      exact length_block_of_le (hinside i (hlength ▸ hi))
    have hbound : t < chunks.length := hlength ▸ hplace
    have hshort : chunks[t].length = W % P := by
      have hrem := Nat.mod_lt W hpositive
      rw [hchunk, hsource, length_block, ← hT]
      omega
    rw [length_flatten_of_full_except hbound hothers, hshort, hlength, hcount,
      Nat.add_sub_cancel, hfront, hW]

theorem exists_assembled_of_sizesMatch (hcut : Cut P payloads) (hpositive : 0 < P) (hP : P ≤ 2 ^ 32)
    (hflatten : payloads.flatten = message) (hge : 2 ^ 32 ≤ message.length)
    (hnum : num.toNat = (message.length % 2 ^ 32 + (P - 1)) % 2 ^ 32 / P)
    (h : SizesMatch P (message.length % 2 ^ 32) message.length) :
    ∃ bytes, Assembled num (UInt32.ofNat message.length) (SentAs payloads) bytes := by
  obtain ⟨hle, hmatch⟩ := h
  set W := message.length % 2 ^ 32 with hW
  have hcount : num.toNat = W ⌈/⌉ P := by
    rw [hnum, Nat.mod_eq_of_lt (by omega), Nat.ceilDiv_eq_add_pred_div, Nat.add_sub_assoc hpositive]
  by_cases hdvd : P ∣ W
  · apply exists_assembled_of_full hcut hpositive hflatten
    rw [hcount, Nat.ceilDiv_eq_add_pred_div]
    obtain ⟨q, hq⟩ := hdvd
    rw [← hW, hq, Nat.add_sub_assoc hpositive, Nat.mul_add_div hpositive,
      Nat.div_eq_of_lt (by omega), Nat.add_zero, Nat.mul_comm]
  · obtain ⟨hsame, hlt⟩ := hmatch.resolve_left hdvd
    have hpos : 0 < W % P := Nat.pos_of_ne_zero fun hzero => hdvd (Nat.dvd_of_mod_eq_zero hzero)
    apply exists_assembled_of_last hcut hpositive hflatten hW (by omega) hsame hpos _ (hcount ▸ hlt)
    have hrem := Nat.mod_lt W hpositive
    have hone : (W % P + (P - 1)) / P = 1 := Nat.div_eq_of_lt_le (by omega) (by omega)
    rw [hcount, Nat.ceilDiv_eq_add_pred_div, Nat.add_sub_assoc hpositive]
    conv_lhs => rw [← Nat.div_add_mod W P, Nat.add_assoc, Nat.mul_add_div hpositive, hone]

end Selection

/-! ## What can be delivered -/

section Delivers

variable {E : Type} [LinearOrder E]

/-- Some of the datagrams, in some order, make a new object return the bytes without an error. -/
def Delivers (host : ByteOrder) (senderEndpoint : E) (wire : List (List UInt8))
    (bytes : List UInt8) :
    Prop :=
  ∃ (received : List (List UInt8)) (calls : List (Call E)), received.Subperm wire ∧
    List.Forall₂ (HandsIn senderEndpoint) calls received ∧
    some ⟨some bytes, .ok⟩ ∈ (Machine.run (step host) (∅ : Reassembly E) calls).1

/-- Calls that hand in the given bytes. -/
def callsOf (senderEndpoint : E) (received : List (List UInt8)) : List (Call E) :=
  received.map fun bytes =>
    .handleDatagram ⟨0, .empty, fun _ => 0⟩ (.ofBytes bytes) senderEndpoint ⟨.ok, ""⟩

omit [LinearOrder E] in
theorem handsIn_callsOf (senderEndpoint : E) (received : List (List UInt8)) :
    List.Forall₂ (HandsIn senderEndpoint) (callsOf senderEndpoint received) received := by
  rw [callsOf, List.forall₂_map_left_iff]
  exact List.forall₂_same.mpr fun bytes _ => ⟨_, _, _, rfl, RawMemory.bytes_ofBytes bytes⟩

theorem delivers_nonFragmented_iff (host : ByteOrder) (senderEndpoint : E) (magic : Magic)
    (payload bytes : List UInt8) :
    Delivers host senderEndpoint [wireNonFragmented magic payload] bytes ↔
      bytes = payload.take (payload.length % 2 ^ 32) := by
  constructor
  · rintro ⟨received, calls, hreceived, hcalls, hmem⟩
    rcases received with _ | ⟨b, rest⟩
    · cases hcalls
      cases hmem
    · have hlength := hreceived.length_le
      obtain rfl : rest = [] := by
        rw [List.length_cons, List.length_singleton] at hlength
        exact List.length_eq_zero_iff.mp (by omega)
      obtain rfl := List.mem_singleton.mp (hreceived.subset List.mem_cons_self)
      cases hcalls with
      | cons hcall hcalls =>
        cases hcalls
        rw [run_of_nonFragmented host hcall, List.mem_singleton] at hmem
        cases hmem
        rfl
  · rintro rfl
    have hcalls := handsIn_callsOf senderEndpoint [wireNonFragmented magic payload]
    refine ⟨_, _, List.Subperm.refl _, hcalls, ?_⟩
    cases hcalls with
    | cons hcall hrest =>
      cases hrest
      have hrun : Machine.run (step host) (∅ : Reassembly E)
          (callsOf senderEndpoint [wireNonFragmented magic payload]) = _ :=
        run_of_nonFragmented host hcall
      rw [hrun]
      exact List.mem_singleton_self _

section Fragmented

variable {magic : Magic} {messageId num : UInt32} {P : ℕ} {message : List UInt8}
  {wire payloads : List (List UInt8)}

omit [LinearOrder E] in
/-- Every datagram of a message is read as its info or as a fragment from its blocks. -/
theorem exists_comes (host : ByteOrder) (senderEndpoint : E) (hP : P < 2 ^ 32)
    (hwire : WireFragmented magic messageId num P message wire payloads) {calls : List (Call E)}
    {received : List (List UInt8)} (hcalls : List.Forall₂ (HandsIn senderEndpoint) calls received)
    (hreceived : received ⊆ wire) :
    ∃ xs, List.Forall₂ (IsArrival host ⟨senderEndpoint, messageId.toInt32⟩) calls xs ∧
      ∀ x ∈ xs, Comes num (UInt32.ofNat message.length) (SentAs payloads) x.2 := by
  induction hcalls with
  | nil => exact ⟨[], .nil, fun x hx => absurd hx List.not_mem_nil⟩
  | @cons call bytes calls received hcall _ ih =>
    obtain ⟨xs, harrivals, hcomes⟩ := ih fun b hb => hreceived (List.mem_cons_of_mem _ hb)
    suffices ∃ x, IsArrival host ⟨senderEndpoint, messageId.toInt32⟩ call x ∧
        Comes num (UInt32.ofNat message.length) (SentAs payloads) x.2 by
      obtain ⟨x, harrival, hx⟩ := this
      exact ⟨x :: xs, .cons harrival harrivals, List.forall_mem_cons.mpr ⟨hx, hcomes⟩⟩
    obtain ⟨env, buffer, error, rfl, hbytes⟩ := hcall
    have hmem := hreceived List.mem_cons_self
    rw [hwire.wire, ← hbytes] at hmem
    rcases List.mem_cons.mp hmem with hinfo | hmem
    · rw [← List.append_nil (wireHeader _ _ _ _ _)] at hinfo
      exact ⟨(env.now, _), ⟨env, buffer, error, rfl, rfl, arrivalOf_wireInfo host hinfo⟩, .info⟩
    · obtain ⟨j, hj, hfragment⟩ := List.mem_mapIdx.mp hmem
      have hle := hwire.cut.le _ (List.getElem_mem hj)
      have hlen : (UInt32.ofNat payloads[j].length).toNat = payloads[j].length := by
        rw [UInt32.toNat_ofNat', Nat.mod_eq_of_lt (by omega)]
      obtain ⟨view, harr, hview⟩ := arrivalOf_wireFragment host hfragment.symm
      obtain ⟨v, rfl, -, hv⟩ := hview (by rw [hlen, Nat.mod_eq_of_lt (by omega)])
      rw [hlen, List.take_length] at hv
      refine ⟨(env.now, _), ⟨env, buffer, error, rfl, rfl, harr⟩, .fragment _ v ⟨j, ?_, ?_⟩⟩
      · rw [List.getElem?_eq_getElem hj, hv]
      · exact UInt32.toNat_ofNat'.symm

/-- The datagrams of a selection are among those of the message. -/
theorem subperm_of_sentAs {chunks : List (List UInt8)}
    (h : ∀ i (hi : i < chunks.length), SentAs payloads i chunks[i]) :
    (chunks.mapIdx (wireFragment magic messageId)).Subperm
      (payloads.mapIdx (wireFragment magic messageId)) := by
  have hsource : ∀ i, ∃ j, ∀ hi : i < chunks.length,
      payloads[j]? = some chunks[i] ∧ j % 2 ^ 32 = i := by
    intro i
    by_cases hi : i < chunks.length
    · obtain ⟨j, hj⟩ := h i hi
      exact ⟨j, fun _ => hj⟩
    · exact ⟨0, fun hi' => absurd hi' hi⟩
  choose source hsource using hsource
  set datagram : ℕ → List UInt8 := fun j => wireFragment magic messageId j (payloads.getD j [])
  have hchunks : chunks.mapIdx (wireFragment magic messageId) =
      ((List.range chunks.length).map source).map datagram := by
    apply List.ext_getElem (by simp)
    intro i hi _
    rw [List.length_mapIdx] at hi
    obtain ⟨hget, hmod⟩ := hsource i hi
    have hnum : UInt32.ofNat i = UInt32.ofNat (source i) := by
      rw [← UInt32.toNat_inj, UInt32.toNat_ofNat', UInt32.toNat_ofNat', hmod,
        Nat.mod_eq_of_lt (hmod ▸ Nat.mod_lt _ (by decide))]
    rw [List.getElem_mapIdx, List.getElem_map, List.getElem_map, List.getElem_range]
    show _ = wireFragment magic messageId (source i) (payloads.getD (source i) [])
    rw [List.getD_eq_getElem?_getD, hget, Option.getD_some, wireFragment, wireFragment, hnum]
  have hpayloads : payloads.mapIdx (wireFragment magic messageId) =
      (List.range payloads.length).map datagram := by
    apply List.ext_getElem (by simp)
    intro j hj _
    rw [List.length_mapIdx] at hj
    rw [List.getElem_mapIdx, List.getElem_map, List.getElem_range]
    show _ = wireFragment magic messageId j (payloads.getD j [])
    rw [List.getD_eq_getElem _ _ hj]
  have hnodup : ((List.range chunks.length).map source).Nodup := by
    refine List.Nodup.map_on (fun i hi j hj heq => ?_) List.nodup_range
    rw [← (hsource i (List.mem_range.mp hi)).2, heq, (hsource j (List.mem_range.mp hj)).2]
  have hsubset : (List.range chunks.length).map source ⊆ List.range payloads.length := by
    intro j hj
    obtain ⟨i, hi, rfl⟩ := List.mem_map.mp hj
    obtain ⟨hlt, -⟩ := List.getElem?_eq_some_iff.mp (hsource i (List.mem_range.mp hi)).1
    exact List.mem_range.mpr hlt
  obtain ⟨l, hperm, hsublist⟩ := hnodup.subperm hsubset
  rw [hchunks, hpayloads]
  exact ⟨l.map datagram, hperm.map datagram, hsublist.map datagram⟩

/-- Deliverable bytes: a new object can be made to return exactly the selections of blocks. -/
theorem delivers_iff_assembled (host : ByteOrder) (senderEndpoint : E) (hP : P < 2 ^ 32)
    (hwire : WireFragmented magic messageId num P message wire payloads) (bytes : List UInt8) :
    Delivers host senderEndpoint wire bytes ↔
      Assembled num (UInt32.ofNat message.length) (SentAs payloads) bytes := by
  have hempty : (∅ : Reassembly E)[(⟨senderEndpoint, messageId.toInt32⟩ :
      FragmentedPackageKey E)]? = none := Std.ExtTreeMap.getElem?_empty
  constructor
  · rintro ⟨received, calls, hreceived, hcalls, hmem⟩
    obtain ⟨xs, harrivals, hcomes⟩ := exists_comes host senderEndpoint hP hwire hcalls
      hreceived.subset
    rw [run_atKey host harrivals, hempty] at hmem
    have hdrawn : Drawn num (UInt32.ofNat message.length) (SentAs payloads) (Entry.package none) :=
      drawn_default
    exact run_drawn hcomes hdrawn _ hmem _ bytes rfl rfl
  · rintro ⟨chunks, hcount, hchunks, rfl, hlength⟩
    let m : Message :=
      ⟨chunks, hcount ▸ num.toNat_lt, hlength ▸ (UInt32.ofNat message.length).toNat_lt⟩
    have hnum : m.num = num := UInt32.toNat_inj.mp (m.toNat_num.trans hcount)
    have hlen : m.len = UInt32.ofNat message.length :=
      UInt32.toNat_inj.mp (m.toNat_len.trans hlength)
    refine ⟨m.partList.map (m.encode magic messageId.toInt32), callsOf senderEndpoint _, ?_,
      handsIn_callsOf senderEndpoint _, ?_⟩
    · rw [m.map_encode_partList, hwire.wire, hnum, hlen, List.subperm_cons]
      exact subperm_of_sentAs hchunks
    · rw [run_of_perm_parts host (m := m) hempty (List.Perm.refl _) (handsIn_callsOf _ _)]
      exact List.mem_append_right _ (List.mem_singleton_self _)

end Fragmented

end Delivers

/-! ## Silent truncation -/

/-- The sizes of messages of which something else can be delivered: from 4 GiB on, those that fit
into a datagram because the sum of the sizes wraps, and those of which some blocks make up the
announced size. -/
def Truncatable (totalSize maxDatagramSize : ℕ) : Prop :=
  2 ^ 32 ≤ totalSize ∧
    ((UInt64.ofNat totalSize + 24).toNat ≤ maxDatagramSize ∨
      SizesMatch (maxDatagramSize - sizeofHeader) (totalSize % 2 ^ 32) totalSize)

section Truncation

variable {E : Type} [LinearOrder E] {buffers : List (List UInt8)} {maxDatagramSize : ℕ}
  {rng rng' : Xorshf96} {datagrams : DatagramList}

/-- Something else than the message can be delivered exactly if its size is one of these. -/
theorem exists_delivers_ne_iff (sender receiver : ByteOrder) (senderEndpoint : E) {magic : Magic}
    (hsize : sizeofHeader < maxDatagramSize) (hmax : maxDatagramSize ≤ 65507)
    (h : createDatagramList sender buffers maxDatagramSize magic rng = .ok (datagrams, rng')) :
    (∃ bytes, Delivers receiver senderEndpoint
        (datagrams.map (DatagramDescription.serialise sender)) bytes ∧ bytes ≠ buffers.flatten) ↔
      Truncatable buffers.flatten.length maxDatagramSize := by
  have hpositive : 0 < maxDatagramSize - sizeofHeader := by omega
  have hP : maxDatagramSize - sizeofHeader < 2 ^ 31 := by omega
  obtain ⟨-, ⟨hfits, hwire⟩ | ⟨hfits, num, payloads, hneeded, hwire⟩⟩ :=
    wire_of_createDatagramList h
  · rw [hwire, Truncatable, and_iff_left (Or.inl hfits)]
    simp only [delivers_nonFragmented_iff]
    constructor
    · rintro ⟨bytes, rfl, hne⟩
      by_contra hlt
      exact hne (by rw [Nat.mod_eq_of_lt (Nat.not_le.mp hlt), List.take_length])
    · intro hge
      refine ⟨_, rfl, fun heq => ?_⟩
      have hlength := congrArg List.length heq
      rw [List.length_take] at hlength
      omega
  · rw [Truncatable, or_iff_right hfits]
    simp only [delivers_iff_assembled receiver senderEndpoint (hP.trans (by decide)) hwire]
    have hne : buffers.flatten ≠ [] := by
      intro hnil
      rw [hnil] at hfits
      exact hfits hsize.le
    have hnum : num.toNat = (buffers.flatten.length % 2 ^ 32 +
        (maxDatagramSize - sizeofHeader - 1)) % 2 ^ 32 / (maxDatagramSize - sizeofHeader) := by
      obtain ⟨num', hneeded', hvalue⟩ := neededFragmentCount_eq
        (UInt32.ofNat buffers.flatten.length) hsize (by omega) (by omega)
      rw [hneeded] at hneeded'
      cases hneeded'
      rwa [UInt32.toNat_ofNat'] at hvalue
    constructor
    · rintro ⟨bytes, hassembled, hbytes⟩
      have hge : 2 ^ 32 ≤ buffers.flatten.length := by
        by_contra hlt
        exact hbytes (eq_message_of_assembled hwire.cut hpositive (by omega) hwire.flatten hne
          (Nat.not_le.mp hlt) hnum hassembled)
      exact ⟨hge, sizesMatch_of_assembled hwire.cut hpositive (by omega) hwire.flatten hnum
        hassembled⟩
    · rintro ⟨hge, hmatch⟩
      obtain ⟨bytes, hassembled⟩ := exists_assembled_of_sizesMatch hwire.cut hpositive (by omega)
        hwire.flatten hge hnum hmatch
      exact ⟨bytes, hassembled, ne_message_of_assembled hge hassembled⟩

/-- Silent truncation: whatever datagrams of a message arrive in whatever order, nothing but the
message is delivered, if and only if its size is not one of those that can be truncated. -/
theorem never_truncated_iff (sender receiver : ByteOrder) (senderEndpoint : E) {magic : Magic}
    (hsize : sizeofHeader < maxDatagramSize) (hmax : maxDatagramSize ≤ 65507)
    (h : createDatagramList sender buffers maxDatagramSize magic rng = .ok (datagrams, rng')) :
    (∀ bytes, Delivers receiver senderEndpoint
        (datagrams.map (DatagramDescription.serialise sender)) bytes → bytes = buffers.flatten) ↔
      ¬ Truncatable buffers.flatten.length maxDatagramSize := by
  rw [← exists_delivers_ne_iff sender receiver senderEndpoint hsize hmax h]
  push Not
  rfl

theorem never_truncated_fragmented :
    ∃ datagrams rng', createDatagramList .bigEndian [[1, 2], [3]] 26 #v[69, 67, 65, 76] ⟨1, 2, 3⟩ =
        .ok (datagrams, rng') ∧ datagrams.length = 3 ∧
      ∀ bytes, Delivers .littleEndian (7 : ℕ)
        (datagrams.map (DatagramDescription.serialise .bigEndian)) bytes → bytes = [1, 2, 3] := by
  have hlength : (createDatagramList .bigEndian [[1, 2], [3]] 26 #v[69, 67, 65, 76]
      ⟨1, 2, 3⟩).toOption.map (fun x => x.1.length) = some 3 := by
    decide +kernel
  rcases h : createDatagramList .bigEndian [[1, 2], [3]] 26 #v[69, 67, 65, 76] ⟨1, 2, 3⟩ with
    e | ⟨datagrams, rng'⟩
  · rw [h] at hlength
    cases hlength
  · rw [h] at hlength
    refine ⟨datagrams, rng', rfl, Option.some.inj hlength, ?_⟩
    refine (never_truncated_iff .bigEndian .littleEndian 7 (by decide) (by decide) h).mpr ?_
    exact fun htruncatable => absurd htruncatable.1 (by decide)

/-- For a message of exactly 4 GiB the info alone delivers the empty message. -/
theorem four_gib_truncated :
    ∃ datagrams rng', createDatagramList .littleEndian [List.replicate (2 ^ 32) 0] 1448
        #v[69, 67, 65, 76] ⟨1, 2, 3⟩ = .ok (datagrams, rng') ∧
      ∃ bytes, Delivers .littleEndian (7 : ℕ)
          (datagrams.map (DatagramDescription.serialise .littleEndian)) bytes ∧
        bytes ≠ [List.replicate (2 ^ 32) (0 : UInt8)].flatten := by
  have hlength : [List.replicate (2 ^ 32) (0 : UInt8)].flatten.length = 2 ^ 32 := by
    rw [List.flatten_singleton, List.length_replicate]
  have hsize : sizeofHeader < 1448 := by decide
  have hfits : ¬ (UInt64.ofNat [List.replicate (2 ^ 32) (0 : UInt8)].flatten.length + 24).toNat ≤
      1448 := by
    rw [hlength]
    decide
  obtain ⟨num, hneeded, -⟩ := neededFragmentCount_eq
    (UInt32.ofNat [List.replicate (2 ^ 32) (0 : UInt8)].flatten.length) hsize
    (by decide) (by decide)
  rcases createDatagramList_eq_of_not_fits hsize hfits .littleEndian
    #v[69, 67, 65, 76] ⟨1, 2, 3⟩ with ⟨e, he, -⟩ | ⟨num', pieces, -, hlist, -, -⟩
  · rw [hneeded] at he
    cases he
  · refine ⟨_, _, hlist, ?_⟩
    rw [exists_delivers_ne_iff .littleEndian .littleEndian 7 hsize (by decide) hlist, hlength]
    exact ⟨Nat.le_refl _, Or.inr ⟨by decide, Or.inl (by decide)⟩⟩

end Truncation

end Ecaludp
