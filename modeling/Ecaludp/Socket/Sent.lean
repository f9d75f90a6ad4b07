import Ecaludp.Socket.Gather

/-!
# What `send_to` returns

`Socket::send_to` adds up what asio reports for each datagram. That is the number of bytes on the
wire, also after an error, and so not the size of the message: the headers of all datagrams count
(`sendTo_returns`).
-/

namespace Ecaludp

/-- `send_to` of asio returns the number of bytes that it has sent, and 0 with an error. -/
def AsioSocket.Counts {σ Err : Type} (asio : AsioSocket σ Err) : Prop :=
  ∀ buffers s, (asio.sendTo buffers s).2.1 =
    if (asio.sendTo buffers s).2.2.isNone then
      UInt64.ofNat (buffers.take maxBuffers).flatten.length else 0

section Sent

variable {σ Err : Type} {asio : AsioSocket σ Err} {host : ByteOrder} {magic : Magic}
    {buffers : List (List UInt8)}
  {maxDatagramSize : ℕ} {rng rng' : Xorshf96} {datagrams : DatagramList}

/-- The loop adds the sizes of the datagrams that it sends, and sends all of them without an
error. -/
theorem sendDatagramListTo_returns (hasio : asio.Lawful) (hcounts : asio.Counts) (host : ByteOrder)
    (datagrams : DatagramList) (sent : UInt64) (s : σ) :
    ∃ n ≤ datagrams.length,
      asio.wire (sendDatagramListTo asio host datagrams sent s).1 =
        asio.wire s ++ (datagrams.map (DatagramDescription.transmitted host)).take n ∧
      (sendDatagramListTo asio host datagrams sent s).2.1 = sent +
        UInt64.ofNat ((datagrams.map (DatagramDescription.transmitted host)).take
          n).flatten.length ∧
      ((sendDatagramListTo asio host datagrams sent s).2.2 = none ↔ n = datagrams.length) := by
  induction datagrams generalizing sent s with
  | nil => exact ⟨0, Nat.le_refl 0, (List.append_nil _).symm, (UInt64.add_zero _).symm,
      iff_of_true rfl rfl⟩
  | cons d ds ih =>
    have hwire := hasio.wire_sendTo (d.buffers host) s
    have hcount := hcounts (d.buffers host) s
    unfold sendDatagramListTo
    rcases hsend : asio.sendTo (d.buffers host) s with ⟨s', bytes, _ | ec⟩
    · rw [hsend] at hwire hcount
      have hnext : asio.wire s' = asio.wire s ++ [d.transmitted host] := hwire
      have hbytes : bytes = UInt64.ofNat (d.transmitted host).length := hcount
      obtain ⟨n, hle, hn, hsum, hall⟩ := ih (sent + bytes) s'
      refine ⟨n + 1, Nat.succ_le_succ hle, ?_, ?_, ?_⟩
      · simp only [List.map_cons, List.take_succ_cons]
        rw [hn, hnext, List.append_assoc, List.singleton_append]
      · simp only [List.map_cons, List.take_succ_cons, List.flatten_cons, List.length_append]
        rw [hsum, hbytes, UInt64.ofNat_add, UInt64.add_assoc]
      · rw [List.length_cons, Nat.add_right_cancel_iff]
        exact hall
    · rw [hsend] at hwire hcount
      have hbytes : bytes = 0 := hcount
      refine ⟨0, Nat.zero_le _, hwire, ?_, iff_of_false (Option.some_ne_none ec)
        (Nat.succ_ne_zero _).symm⟩
      simp [hbytes]

theorem length_flatten_wireFragment (magic : Magic) (messageId : UInt32)
    (payloads : List (List UInt8)) :
    (payloads.mapIdx (wireFragment magic messageId)).flatten.length =
      payloads.flatten.length + sizeofHeader * payloads.length := by
  induction payloads using List.reverseRecOn with
  | nil => rfl
  | append_singleton payloads payload ih =>
    have hfragment : (wireFragment magic messageId payloads.length payload).length =
        sizeofHeader + payload.length := by
      rw [wireFragment, List.length_append, length_wireHeader]
    rw [List.mapIdx_concat, List.flatten_concat, List.flatten_concat, List.length_append,
      List.length_append, List.length_append, ih, hfragment, List.length_singleton, Nat.mul_add]
    omega

theorem length_serialise_createDatagramList
    (h : createDatagramList host buffers maxDatagramSize magic rng = .ok (datagrams, rng')) :
    (datagrams.map (DatagramDescription.serialise host)).flatten.length =
      buffers.flatten.length + sizeofHeader * datagrams.length := by
  have hlength : (datagrams.map (DatagramDescription.serialise host)).length = datagrams.length :=
    List.length_map _
  obtain ⟨-, ⟨-, hwire⟩ | ⟨-, num, payloads, -, hwire, -, hflatten⟩⟩ := wire_of_createDatagramList h
  · rw [hwire] at hlength ⊢
    rw [← hlength, List.flatten_singleton, wireNonFragmented, List.length_append, length_wireHeader]
    exact Nat.add_comm _ _
  · rw [hwire] at hlength ⊢
    rw [← hlength, List.flatten_cons, List.length_append, length_wireHeader,
      length_flatten_wireFragment, hflatten, List.length_cons, List.length_mapIdx, Nat.mul_add]
    omega

/-- What `send_to` returns: the first datagrams are sent, all of them if and only if there is no
error, and the number returned is that of their bytes: 24 for each and the message, if all of them
are sent whole. -/
theorem sendTo_returns (hasio : asio.Lawful) (hcounts : asio.Counts) {settings : SocketSettings}
    {s s' : σ} {sent : UInt64} {ec : Option Err}
    (hsend : Socket.sendTo asio host settings maxDatagramSize buffers rng s =
      .ok (rng', s', sent, ec)) :
    ∃ datagrams n, createDatagramList host buffers maxDatagramSize settings.magicHeaderBytes rng =
          .ok (datagrams, rng') ∧
      n ≤ datagrams.length ∧ (ec = none ↔ n = datagrams.length) ∧
      asio.wire s' = asio.wire s ++ (datagrams.map (DatagramDescription.transmitted host)).take n ∧
      sent = UInt64.ofNat
        ((datagrams.map (DatagramDescription.transmitted host)).take n).flatten.length ∧
      (ec = none → (∀ d ∈ datagrams, d.asioBufferList.length ≤ maxBuffers) →
        sent = UInt64.ofNat (buffers.flatten.length + sizeofHeader * datagrams.length)) := by
  unfold Socket.sendTo at hsend
  rcases hlist : createDatagramList host buffers maxDatagramSize settings.magicHeaderBytes rng with
    e | ⟨datagrams, rng₁⟩
  · rw [hlist] at hsend
    cases hsend
  · rw [hlist] at hsend
    obtain ⟨rfl, hsent⟩ := Prod.mk.inj (Except.ok.inj hsend)
    obtain ⟨n, hle, hwire, hsum, hall⟩ :=
      sendDatagramListTo_returns hasio hcounts host datagrams 0 s
    simp only [hsent, UInt64.zero_add] at hwire hsum hall
    refine ⟨datagrams, n, rfl, hle, hall, hwire, hsum, fun hnone hwhole => ?_⟩
    have htransmitted : datagrams.map (DatagramDescription.transmitted host) =
        datagrams.map (DatagramDescription.serialise host) :=
      List.map_congr_left fun d hd => transmitted_of_length_le host (hwhole d hd)
    rw [hsum, hall.mp hnone, htransmitted, List.take_of_length_le (by rw [List.length_map]),
      length_serialise_createDatagramList hlist]

end Sent

theorem counts_wireLog : wireLog.Counts := fun _ _ => rfl

/-- Three bytes are sent as 27. -/
theorem sendTo_returns_two_buffers :
    ∃ s', Socket.sendTo wireLog .littleEndian ⟨#v[69, 67, 65, 76], 5⟩ 1448 [[1, 2], [3]]
        ⟨1, 2, 3⟩ [] = .ok (⟨1, 2, 3⟩, s', 27, none) ∧
      ∃ datagrams n,
        createDatagramList .littleEndian [[1, 2], [3]] 1448 #v[69, 67, 65, 76] ⟨1, 2, 3⟩ =
          .ok (datagrams, ⟨1, 2, 3⟩) ∧
        n = datagrams.length ∧
        s' = [] ++ (datagrams.map (DatagramDescription.transmitted .littleEndian)).take n ∧
        ((∀ d ∈ datagrams, d.asioBufferList.length ≤ maxBuffers) →
          27 = UInt64.ofNat
            ([[1, 2], [(3 : UInt8)]].flatten.length + sizeofHeader * datagrams.length)) := by
  have hfits : (UInt64.ofNat [[1, 2], [(3 : UInt8)]].flatten.length + 24).toNat ≤ 1448 := by decide
  have hlist := createDatagramList_eq_of_fits (by decide : 24 < 1448) hfits .littleEndian
    #v[69, 67, 65, 76] ⟨1, 2, 3⟩
  have hsend : ∃ s', Socket.sendTo wireLog .littleEndian ⟨#v[69, 67, 65, 76], 5⟩ 1448
      [[1, 2], [3]] ⟨1, 2, 3⟩ [] = .ok (⟨1, 2, 3⟩, s', 27, none) := by
    rw [Socket.sendTo, hlist]
    exact ⟨_, rfl⟩
  obtain ⟨s', hsend⟩ := hsend
  obtain ⟨datagrams, n, hbuilt, -, hall, hwire, -, hsent⟩ :=
    sendTo_returns lawful_wireLog counts_wireLog hsend
  exact ⟨s', hsend, datagrams, n, hbuilt, hall.mp rfl, hwire, hsent rfl⟩

end Ecaludp
