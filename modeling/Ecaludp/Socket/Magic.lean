import Ecaludp.DatagramBuilder.Wire
import Ecaludp.Socket.Receive
import Ecaludp.Reassembly.Datagram

/-!
# Magic bytes

Sockets with different magic bytes are meant not to see each other's datagrams. The builder copies
the four bytes into every header, the receiver compares them with `strncmp`, so two magics are
separated exactly when they differ as C strings (`magicSeparation_iff`).
-/

namespace Ecaludp

open ByteOrder Reassembly

variable {E : Type} [LinearOrder E] {settings : SocketSettings} {senderEndpoint : E}
  {buffer : RawMemory}

/-- The datagram is rejected as malformed, and `Reassembly::handle_datagram` is not called: the
result is the same whatever that function does. -/
def Rejects (receive : ReassemblyHandler E → SocketHandler E) (settings : SocketSettings)
    (senderEndpoint : E) (buffer : RawMemory) : Prop :=
  ∀ (pruneNow : TimePoint) (env : Env) (error : Error) (packages : Reassembly E),
    ∃ packages' message, ∀ reassemblyHandler : ReassemblyHandler E,
      receive reassemblyHandler settings pruneNow env buffer senderEndpoint error packages =
        .ok (packages', none, ⟨.malformedDatagram, message⟩)

/-- The datagram is handed to `Reassembly::handle_datagram`, which decides the result. -/
def Reaches (receive : ReassemblyHandler E → SocketHandler E) (settings : SocketSettings)
    (senderEndpoint : E) (buffer : RawMemory) : Prop :=
  ∀ (pruneNow : TimePoint) (env : Env) (error : Error) (packages : Reassembly E),
    ∃ packages', ∀ reassemblyHandler : ReassemblyHandler E,
      receive reassemblyHandler settings pruneNow env buffer senderEndpoint error packages =
        (reassemblyHandler env buffer senderEndpoint error packages').map dropOnError

/-- What reaches the reassembly is not rejected: the reassembly might fault. -/
theorem Reaches.not_rejects {receive : ReassemblyHandler E → SocketHandler E}
    (h : Reaches receive settings senderEndpoint buffer) :
    ¬ Rejects receive settings senderEndpoint buffer := by
  intro hrejects
  obtain ⟨packages₁, hreaches⟩ := h 0 ⟨0, .empty, fun _ => 0⟩ ⟨.ok, ""⟩ ∅
  obtain ⟨packages₂, message, hrejects⟩ := hrejects 0 ⟨0, .empty, fun _ => 0⟩ ⟨.ok, ""⟩ ∅
  have h₁ := hreaches fun _ _ _ _ _ => .error .nullFragment
  have h₂ := hrejects fun _ _ _ _ _ => .error .nullFragment
  rw [h₁] at h₂
  cases h₂

/-! ## Reading the common header -/

theorem byteAt_data {i : ℕ} (h : i < buffer.size) :
    byteAt buffer.data i = byteAt buffer.bytes i := by
  unfold byteAt RawMemory.bytes
  rw [List.getD_eq_getElem?_getD, List.getD_eq_getElem?_getD, List.getElem?_take_of_lt h]

theorem load_data (h : sizeofHeaderCommon ≤ buffer.size) :
    HeaderCommon.load buffer.data = ⟨magicAt buffer.bytes, byteAt buffer.bytes 4⟩ := by
  have hbyte : ∀ i < 5, byteAt buffer.data i = byteAt buffer.bytes i :=
    fun i hi => byteAt_data (lt_of_lt_of_le hi h)
  rw [HeaderCommon.load, magicAt, magicAt, hbyte 0 (by omega), hbyte 1 (by omega),
    hbyte 2 (by omega), hbyte 3 (by omega), hbyte 4 (by omega)]

/-- Two magics compare equal if they are the same C string. -/
theorem strncmp_magic_eq_zero_iff (m₁ m₂ : Magic) :
    CString.strncmp 4 m₁.toList m₂.toList = 0 ↔
      CString.ofArray m₁.toList = CString.ofArray m₂.toList :=
  CString.strncmp_eq_zero_iff (by simp) (by simp)

theorem rejects_of_ne (h : sizeofHeaderCommon ≤ buffer.size)
    (hmagic : CString.ofArray (magicAt buffer.bytes).toList ≠
      CString.ofArray settings.magicHeaderBytes.toList) :
    Rejects handleReceived settings senderEndpoint buffer := by
  intro pruneNow env error packages
  have hsize : ¬ buffer.size < sizeofHeaderCommon := Nat.not_lt.mpr h
  have hcmp : ¬ CString.strncmp 4 (HeaderCommon.load buffer.data).magic.toList
      settings.magicHeaderBytes.toList = 0 := by
    rw [load_data h]
    exact (strncmp_magic_eq_zero_iff _ _).not.mpr hmagic
  refine ⟨packages.removeOldPackages (pruneNow - settings.maxReassemblyAge), "Wrong magic bytes",
    fun reassemblyHandler => ?_⟩
  rw [handleReceived_of_not_passesHeader fun hpasses => hcmp hpasses.2.1, headerError,
    if_neg hsize, if_pos hcmp]

theorem reaches_of_eq (h : sizeofHeaderCommon ≤ buffer.size)
    (hmagic : CString.ofArray (magicAt buffer.bytes).toList =
      CString.ofArray settings.magicHeaderBytes.toList) (hversion : byteAt buffer.bytes 4 = 5) :
    Reaches handleReceived settings senderEndpoint buffer := by
  intro pruneNow env error packages
  have hpasses : PassesHeader settings buffer := by
    refine ⟨Nat.not_lt.mpr h, ?_, ?_⟩
    · rw [load_data h]
      exact (strncmp_magic_eq_zero_iff _ _).mpr hmagic
    · rw [load_data h]
      exact hversion
  exact ⟨_, fun reassemblyHandler =>
    handleReceived_of_passesHeader hpasses reassemblyHandler pruneNow env
      senderEndpoint error packages⟩

/-! ## The builder's datagrams -/

section Builder

variable {sender : ByteOrder} {buffers : List (List UInt8)} {maxDatagramSize : ℕ}
  {magic : Magic} {rng rng' : Xorshf96} {datagrams : DatagramList}

theorem exists_header_of_createDatagramList
    (h : createDatagramList sender buffers maxDatagramSize magic rng = .ok (datagrams, rng')) :
    datagrams ≠ [] ∧ ∀ datagram ∈ datagrams, ∃ type id num len rest,
      datagram.serialise sender = wireHeader magic type id num len ++ rest := by
  obtain ⟨-, ⟨-, hwire⟩ | ⟨-, num, payloads, -, hwire⟩⟩ := wire_of_createDatagramList h
  · constructor
    · rintro rfl
      cases hwire
    · intro datagram hmem
      have hserial := List.mem_map_of_mem (f := DatagramDescription.serialise sender) hmem
      rw [hwire, List.mem_singleton] at hserial
      exact ⟨_, _, _, _, _, hserial⟩
  · constructor
    · rintro rfl
      cases hwire.wire
    · intro datagram hmem
      have hserial := List.mem_map_of_mem (f := DatagramDescription.serialise sender) hmem
      rw [hwire.wire, List.mem_cons] at hserial
      rcases hserial with hinfo | hfragment
      · exact ⟨_, _, _, _, [], by rw [hinfo, List.append_nil]⟩
      · obtain ⟨j, hj, hfragment⟩ := List.mem_mapIdx.mp hfragment
        exact ⟨_, _, _, _, _, hfragment.symm⟩

/-- Magic separation: the datagrams that the builder makes with `m₁` are rejected by a socket with
`m₂`, and version 5 datagrams with the four bytes of `m₂` reach its reassembly, exactly when `m₁`
and `m₂` differ as C strings. -/
theorem magicSeparation_iff {m₁ : Magic} (m₂ : Magic) (age : Duration)
    (h : createDatagramList sender buffers maxDatagramSize m₁ rng = .ok (datagrams, rng'))
    (senderEndpoint : E) :
    ((∀ datagram ∈ datagrams, ∀ buffer : RawMemory, buffer.bytes = datagram.serialise sender →
          Rejects Socket.handleDatagram ⟨m₂, age⟩ senderEndpoint buffer ∧
            Rejects SocketNpcap.handleDatagram ⟨m₂, age⟩ senderEndpoint buffer) ∧
        ∀ buffer : RawMemory, sizeofHeader ≤ buffer.size → magicAt buffer.bytes = m₂ →
          byteAt buffer.bytes 4 = 5 →
          Reaches Socket.handleDatagram ⟨m₂, age⟩ senderEndpoint buffer ∧
            Reaches SocketNpcap.handleDatagram ⟨m₂, age⟩ senderEndpoint buffer) ↔
      CString.ofArray m₁.toList ≠ CString.ofArray m₂.toList := by
  obtain ⟨hne, hheader⟩ := exists_header_of_createDatagramList h
  constructor
  · intro hsep hsame
    obtain ⟨datagram, datagrams, rfl⟩ := List.exists_cons_of_ne_nil hne
    obtain ⟨type, id, num, len, rest, hserial⟩ := hheader datagram List.mem_cons_self
    set buffer := RawMemory.ofBytes (datagram.serialise sender)
    have hbytes : buffer.bytes = wireHeader m₁ type id num len ++ rest := by
      rw [RawMemory.bytes_ofBytes, hserial]
    have hsize : sizeofHeaderCommon ≤ buffer.size := by
      rw [size_of_bytes hbytes]
      exact Nat.le_add_right_of_le (by decide)
    have hreaches : Reaches handleReceived ⟨m₂, age⟩ senderEndpoint buffer := by
      apply reaches_of_eq hsize
      · rw [hbytes, magicAt_wireHeader]
        exact hsame
      · rw [hbytes, versionAt_wireHeader]
    exact hreaches.not_rejects
      (hsep.1 datagram List.mem_cons_self buffer (RawMemory.bytes_ofBytes _)).1
  · intro hdiffer
    constructor
    · intro datagram hmem buffer hbuffer
      obtain ⟨type, id, num, len, rest, hserial⟩ := hheader datagram hmem
      rw [hserial] at hbuffer
      have hrejects : Rejects handleReceived ⟨m₂, age⟩ senderEndpoint buffer := by
        apply rejects_of_ne
        · rw [size_of_bytes hbuffer]
          exact Nat.le_add_right_of_le (by decide)
        · rw [hbuffer, magicAt_wireHeader]
          exact hdiffer
      exact ⟨hrejects, hrejects⟩
    · intro buffer hsize hmagic hversion
      have hreaches : Reaches handleReceived ⟨m₂, age⟩ senderEndpoint buffer :=
        reaches_of_eq (Nat.le_trans (by decide) hsize) (by rw [hmagic]) hversion
      exact ⟨hreaches, hreaches⟩

end Builder

theorem magicSeparation_ecal :
    ∃ datagrams, createDatagramList .littleEndian [[1, 2, 3]] 1448 #v[69, 67, 65, 76] ⟨1, 2, 3⟩ =
        .ok (datagrams, ⟨1, 2, 3⟩) ∧
      ∀ datagram ∈ datagrams, ∀ buffer : RawMemory,
        buffer.bytes = datagram.serialise .littleEndian →
          Rejects Socket.handleDatagram ⟨#v[69, 67, 65, 77], 0⟩ 0 buffer ∧
            Rejects SocketNpcap.handleDatagram ⟨#v[69, 67, 65, 77], 0⟩ 0 buffer := by
  obtain ⟨datagrams, hlist⟩ : ∃ datagrams, createDatagramList .littleEndian [[1, 2, 3]] 1448
      #v[69, 67, 65, 76] ⟨1, 2, 3⟩ = .ok (datagrams, ⟨1, 2, 3⟩) := ⟨_, rfl⟩
  have hsep := (magicSeparation_iff #v[69, 67, 65, 77] 0 hlist (0 : ℕ)).mpr (by decide)
  exact ⟨datagrams, hlist, hsep.1⟩

/-- Two magics that start with a NUL byte are the same to a receiver: the message is delivered. -/
theorem magic_nul_not_separated :
    (#v[0, 0, 0, 0] : Magic) ≠ #v[0, 1, 0, 0] ∧
      ∃ datagram,
        createDatagramList .littleEndian [[1, 2, 3]] 1448 #v[0, 0, 0, 0] ⟨1, 2, 3⟩ =
            .ok ([datagram], ⟨1, 2, 3⟩) ∧
          (Socket.step .littleEndian ⟨#v[0, 1, 0, 0], 0⟩ (∅ : Reassembly ℕ)
              ⟨0, ⟨0, .empty, fun _ => 0⟩, .ofBytes (datagram.serialise .littleEndian), 0,
                ⟨.genericError, ""⟩⟩).map Prod.snd = .ok ⟨some [1, 2, 3], .ok⟩ :=
  ⟨by decide, _, rfl, rfl⟩

end Ecaludp
