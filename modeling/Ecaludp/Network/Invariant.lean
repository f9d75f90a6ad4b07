import Ecaludp.Network
import Ecaludp.RoundTrip
import Ecaludp.Socket.Magic
import Ecaludp.Socket.Timeout

/-!
# What holds on every network

Every sent message is one datagram or the parts of a `Message` (`Encoded`), fragmented messages have
keys of their own, and the receiver has no package of a sending socket but under the key of a
message that was sent (`WellFormed`).
-/

namespace Ecaludp

open ByteOrder Reassembly

variable {E P : Type} {magic : Magic}

/-- The message goes out in one datagram, or as the parts of a fragmented message with an id. -/
inductive SentMessage.Encoded (magic : Magic) (message : SentMessage E) :
    Option (Int32 × Message) → Prop
  | whole (hlength : message.content.length < 2 ^ 32)
      (h : message.datagrams = [wireNonFragmented magic message.content]) :
      Encoded magic message none
  | parts (id : Int32) (m : Message) (hchunks : m.chunks ≠ [])
      (h : message.datagrams = m.partList.map (m.encode magic id))
      (hcontent : m.chunks.flatten = message.content) : Encoded magic message (some (id, m))

namespace SentMessage

variable {message : SentMessage E} {id : Int32} {m : Message}

theorem Encoded.id?_eq_none (h : message.Encoded magic none) : message.id? = none := by
  cases h with
  | whole _ h =>
    unfold id?
    rw [h, if_neg (by simp)]

theorem Encoded.id?_eq_some (h : message.Encoded magic (some (id, m))) : message.id? = some id := by
  cases h with
  | parts _ _ hchunks h _ =>
    have hlength : 1 < message.datagrams.length := by
      rw [h, List.length_map, m.length_partList]
      have := List.length_pos_iff.mpr hchunks
      omega
    have hid := idAt_wireHeader magic .fragmentedMessageInfo id m.num m.len []
    rw [List.append_nil] at hid
    unfold id?
    rw [if_pos hlength, h, Message.partList, List.map_cons, List.headD_cons, Message.encode, hid,
      Int32.toInt32_toUInt32]

theorem Encoded.length_datagrams (h : message.Encoded magic (some (id, m))) :
    message.datagrams.length = m.chunks.length + 1 := by
  cases h with
  | parts _ _ _ h _ => rw [h, List.length_map, m.length_partList]

theorem Encoded.exists_part (h : message.Encoded magic (some (id, m))) {j : ℕ} {bytes : List UInt8}
    (hj : message.datagrams[j]? = some bytes) :
    ∃ part, m.partList[j]? = some part ∧ part ∈ m.parts ∧ bytes = m.encode magic id part := by
  cases h with
  | parts _ _ _ h _ =>
    rw [h, List.getElem?_map, Option.map_eq_some_iff] at hj
    obtain ⟨part, hpart, rfl⟩ := hj
    exact ⟨part, hpart, (Message.mem_iff_of_perm (.refl _)).mp (List.mem_of_getElem? hpart), rfl⟩

/-- What the builder returns for a message that can be announced. -/
theorem encoded_of_createDatagramList (host : ByteOrder) (magic : Magic)
    {buffers : List (List UInt8)} {maxDatagramSize : ℕ} (hsize : sizeofHeader < maxDatagramSize)
    (htotal : buffers.flatten.length + (maxDatagramSize - sizeofHeader) ≤ 2 ^ 32) (rng : Xorshf96)
    (endpoint : E) :
    ∃ datagrams rng', createDatagramList host buffers maxDatagramSize magic rng =
      .ok (datagrams, rng') ∧
      ∃ x, (⟨endpoint, buffers.flatten, datagrams.map (DatagramDescription.serialise host)⟩ :
          SentMessage E).Encoded magic x ∧
        ∀ id m, x = some (id, m) → id = (xorshf96 rng).1.toInt32 ∧
          maxDatagramSize < buffers.flatten.length + sizeofHeader := by
  have hheader : sizeofHeader = 24 := rfl
  by_cases hfragmented : maxDatagramSize < buffers.flatten.length + sizeofHeader
  · obtain ⟨datagrams, m, hlist, hwire, hflatten⟩ :=
      createDatagramList_parts hsize htotal hfragmented host magic rng
    have hchunks : m.chunks ≠ [] := by
      intro hnil
      rw [hnil] at hflatten
      rw [← hflatten, List.flatten_nil, List.length_nil] at hfragmented
      omega
    refine ⟨datagrams, _, hlist, some (_, m), .parts _ m hchunks hwire hflatten, fun id m' h => ?_⟩
    cases h
    exact ⟨rfl, hfragmented⟩
  · have hfits : (UInt64.ofNat buffers.flatten.length + 24).toNat ≤ maxDatagramSize :=
      (fits_iff (by omega)).mpr (Nat.not_lt.mp hfragmented)
    refine ⟨_, rng, createDatagramList_eq_of_fits hsize hfits host magic rng, none,
      .whole (show buffers.flatten.length < 2 ^ 32 by omega) ?_, fun id m h => by cases h⟩
    rw [List.map_singleton, serialise_createNonFragmentedDatagram, flatten_filter_length_pos]

end SentMessage

/-! ## The datagrams of a sender at the receiver -/

namespace Socket

variable {host : ByteOrder} {settings : SocketSettings} {buffer : RawMemory} {r : Receipt E}

/-- A datagram with the magic of the socket passes the checks of the common header. -/
theorem passesHeader_of_bytes {type : DatagramType} {id : Int32} {num len : UInt32}
    {payload : List UInt8}
    (h : buffer.bytes = wireHeader settings.magicHeaderBytes type id num len ++ payload) :
    PassesHeader settings buffer := by
  have hsize : sizeofHeaderCommon ≤ buffer.size := by
    rw [size_of_bytes h]
    exact Nat.le_add_right_of_le (by decide)
  refine ⟨Nat.not_lt.mpr hsize, ?_, ?_⟩
  · rw [load_data hsize, h, magicAt_wireHeader]
    exact (strncmp_magic_eq_zero_iff _ _).mpr rfl
  · rw [load_data hsize, h]
    exact versionAt_wireHeader ..

theorem passesHeader_of_encode {m : Message} {id : Int32} {part : Part}
    (h : buffer.bytes = m.encode settings.magicHeaderBytes id part) :
    PassesHeader settings buffer := by
  cases part with
  | info =>
    have hinfo : buffer.bytes =
        wireHeader settings.magicHeaderBytes .fragmentedMessageInfo id m.num m.len ++ [] :=
      h.trans (List.append_nil _).symm
    exact passesHeader_of_bytes hinfo
  | chunk i => exact passesHeader_of_bytes h

variable (host) in
/-- A part arrives at the entry of its key, and at no other. -/
theorem arrivalAt_of_encode [LinearOrder E] {m : Message} {id : Int32} {part : Part}
    (h : r.buffer.bytes = m.encode settings.magicHeaderBytes id part) :
    ∃ a, m.Reads part a ∧ ∀ key : FragmentedPackageKey E, arrivalAt host settings key r =
      if (⟨r.senderEndpoint, id⟩ : FragmentedPackageKey E) = key then
        some (r.env.now, a) else none := by
  obtain ⟨a, harr, hreads⟩ := Message.arrivalOf_encode host h
  refine ⟨a, hreads, fun key => ?_⟩
  unfold arrivalAt arrivalOf
  rw [if_pos (passesHeader_of_encode h), harr]

variable (host) in
theorem arrivalOf_of_wireNonFragmented {content : List UInt8} (hlength : content.length < 2 ^ 32)
    (h : buffer.bytes = wireNonFragmented settings.magicHeaderBytes content) :
    arrivalOf host settings buffer = none ∧
      otherOutcome host settings buffer = ⟨some content, .ok⟩ := by
  have hlen : (UInt32.ofNat content.length).toNat = content.length := by
    rw [UInt32.toNat_ofNat', Nat.mod_eq_of_lt hlength]
  obtain ⟨harr, hother⟩ := otherOutcome_wireNonFragmented host h
    (Nat.le_of_eq (hlen.trans (Nat.mod_eq_of_lt hlength).symm))
  rw [hlen, List.take_length] at hother
  have hpasses := passesHeader_of_bytes h
  unfold arrivalOf otherOutcome
  rw [if_pos hpasses, if_pos hpasses]
  exact ⟨harr, hother⟩

theorem arrivalAt_of_arrivalOf_none [LinearOrder E] (h : arrivalOf host settings r.buffer = none)
    (key : FragmentedPackageKey E) : arrivalAt host settings key r = none := by
  unfold arrivalAt
  rw [h]

theorem arrivalAt_of_ne [LinearOrder E] {key : FragmentedPackageKey E}
    (h : r.senderEndpoint ≠ key.endpoint) :
    arrivalAt host settings key r = none := by
  unfold arrivalAt
  split
  · exact if_neg fun hkey => h (congrArg FragmentedPackageKey.endpoint hkey)
  · rfl

/-- An entry at which nothing arrives is pruned. -/
theorem getElem?_of_arrivalAt_none [LinearOrder E] {packages packages' : Reassembly E} {o : Outcome}
    {key : FragmentedPackageKey E} (h : arrivalAt host settings key r = none)
    (hstep : step host settings packages r = .ok (packages', o)) :
    packages'[key]? = Entry.prune (limit settings r) packages[key]? := by
  have hvisit := visit_of_step key hstep
  rw [h] at hvisit
  exact (Prod.mk.inj (Except.ok.inj hvisit)).1.symm

end Socket

namespace Network

variable [LinearOrder E]

/-- The messages went out as they should, fragmented ones under keys of their own, and the receiver
has packages of sending sockets under these keys only. -/
structure WellFormed (d : Deployment E P) (w : Network E P) : Prop where
  encoded : ∀ message ∈ w.sent, d.sender message.endpoint ≠ none ∧
    ∃ x, message.Encoded d.settings.magicHeaderBytes x
  distinct : w.sent.Pairwise fun a b => a.endpoint = b.endpoint → b.id? ≠ none → b.id? ≠ a.id?
  unused : ∀ key : FragmentedPackageKey E, d.sender key.endpoint ≠ none →
    (∀ message ∈ w.sent, message.endpoint = key.endpoint → message.id? ≠ some key.id) →
      w.packages[key]? = none

theorem wellFormed_init (d : Deployment E P) (rng : P → Xorshf96) :
    (init rng : Network E P).WellFormed d where
  encoded message h := by cases h
  distinct := List.Pairwise.nil
  unused key _ _ := Std.ExtTreeMap.getElem?_empty

theorem WellFormed.index_unique {d : Deployment E P} {w : Network E P}
    (h : w.WellFormed d) {i j : ℕ}
    {a b : SentMessage E} (hi : w.sent[i]? = some a) (hj : w.sent[j]? = some b)
    (hendpoint : a.endpoint = b.endpoint) (hid : a.id? = b.id?) (hfragmented : a.id? ≠ none) :
    i = j := by
  obtain ⟨hilt, rfl⟩ := List.getElem?_eq_some_iff.mp hi
  obtain ⟨hjlt, rfl⟩ := List.getElem?_eq_some_iff.mp hj
  have hpairwise := List.pairwise_iff_getElem.mp h.distinct
  rcases Nat.lt_trichotomy i j with hlt | heq | hlt
  · exact absurd hid.symm (hpairwise i j hilt hjlt hlt hendpoint (hid ▸ hfragmented))
  · exact heq
  · exact absurd hid (hpairwise j i hjlt hilt hlt hendpoint.symm hfragmented)

/-! ## Steps -/

section Step

variable {d : Deployment E P} {w w' : Network E P} {o : Option Outcome}

/-- What arrives at the entry of a sending socket is a part of a message that it sent. -/
theorem WellFormed.arrivalAt_cases (h : w.WellFormed d) {origin : Option (ℕ × ℕ)} {r : Receipt E}
    (hpossible : Event.Possible d w (.receive origin r)) (key : FragmentedPackageKey E)
    (hsender : d.sender key.endpoint ≠ none) :
    Socket.arrivalAt d.host d.settings key r = none ∨
      ∃ i j message m, origin = some (i, j) ∧ w.sent[i]? = some message ∧
        message.Encoded d.settings.magicHeaderBytes (some (key.id, m)) ∧
        message.endpoint = key.endpoint := by
  rcases origin with _ | ⟨i, j⟩
  · refine Or.inl (Socket.arrivalAt_of_ne ?_)
    intro heq
    rw [← heq] at hsender
    exact hsender hpossible
  · obtain ⟨message, hi, hj, hendpoint⟩ := hpossible
    obtain ⟨-, x, hx⟩ := h.encoded message (List.mem_of_getElem? hi)
    cases x with
    | none =>
      cases hx with
      | whole hlength hdatagrams =>
        rw [hdatagrams, List.getElem?_singleton] at hj
        split_ifs at hj
        exact Or.inl (Socket.arrivalAt_of_arrivalOf_none
          (Socket.arrivalOf_of_wireNonFragmented d.host hlength (Option.some.inj hj).symm).1 key)
    | some x =>
      obtain ⟨id, m⟩ := x
      obtain ⟨part, -, -, hbytes⟩ := hx.exists_part hj
      obtain ⟨a, -, harr⟩ := Socket.arrivalAt_of_encode d.host hbytes
      by_cases hkey : (⟨r.senderEndpoint, id⟩ : FragmentedPackageKey E) = key
      · subst hkey
        exact Or.inr ⟨i, j, message, m, rfl, hi, hx, hendpoint.symm⟩
      · rw [harr, if_neg hkey]
        exact Or.inl rfl

theorem WellFormed.send [DecidableEq P] (h : w.WellFormed d) {endpoint : E}
    {buffers : List (List UInt8)} (hpossible : Event.Possible d w (.send endpoint buffers)) :
    ∃ (rng : P → Xorshf96) (message : SentMessage E),
      step d w (.send endpoint buffers) = .ok (⟨rng, w.sent ++ [message], w.packages⟩, none) ∧
      WellFormed d ⟨rng, w.sent ++ [message], w.packages⟩ ∧
      ∀ id, message.id? = some id →
        w.packages[(⟨message.endpoint, id⟩ : FragmentedPackageKey E)]? = none := by
  obtain ⟨socket, hsocket, hsize, htotal, hgathers, hid⟩ := hpossible
  obtain ⟨datagrams, rng, hlist, x, hx, hdrawn⟩ := SentMessage.encoded_of_createDatagramList
    socket.host d.settings.magicHeaderBytes hsize htotal (w.rng socket.process) endpoint
  set message : SentMessage E :=
    ⟨endpoint, buffers.flatten, datagrams.map (DatagramDescription.serialise socket.host)⟩
  have htransmitted : datagrams.map (DatagramDescription.transmitted socket.host) =
      message.datagrams :=
    List.map_congr_left fun datagram hdatagram =>
      transmitted_of_length_le socket.host (hgathers datagrams rng hlist datagram hdatagram)
  have hfresh : ∀ id, message.id? = some id → ∀ other ∈ w.sent, other.endpoint = endpoint →
      other.id? ≠ some id := by
    intro id hsome other hother hsame
    cases x with
    | none => exact absurd (hx.id?_eq_none.symm.trans hsome) (Option.some_ne_none id).symm
    | some x =>
      obtain ⟨hx₁, hfragmented⟩ := hdrawn x.1 x.2 rfl
      rw [← hsome, hx.id?_eq_some, hx₁]
      exact hid hfragmented other hother hsame
  refine ⟨Function.update w.rng socket.process rng, message, ?_, ⟨?_, ?_, ?_⟩, ?_⟩
  · simp only [step, hsocket, hlist, htransmitted]
    rfl
  · intro other hother
    rcases List.mem_append.mp hother with hother | hother
    · exact h.encoded other hother
    · rw [List.mem_singleton.mp hother]
      exact ⟨by rw [hsocket]; exact Option.some_ne_none _, x, hx⟩
  · refine List.pairwise_append.mpr ⟨h.distinct, List.pairwise_singleton _ _, fun a ha b hb => ?_⟩
    rw [List.mem_singleton.mp hb]
    intro hendpoint hfragmented
    obtain ⟨id, hid⟩ := Option.ne_none_iff_exists'.mp hfragmented
    rw [hid]
    exact (hfresh id hid a ha hendpoint).symm
  · exact fun key hsender hkey =>
      h.unused key hsender fun other hother => hkey other (List.mem_append_left _ hother)
  · intro id hid
    refine h.unused _ (by rw [hsocket]; exact Option.some_ne_none _) fun other hother hsame => ?_
    exact hfresh id hid other hother hsame

theorem WellFormed.receive [DecidableEq P] (h : w.WellFormed d)
    {origin : Option (ℕ × ℕ)} {r : Receipt E} (hpossible : Event.Possible d w (.receive origin r))
    (hstep : step d w (.receive origin r) = .ok (w', o)) :
    w'.WellFormed d ∧ w'.sent = w.sent := by
  obtain ⟨⟨packages, outcome⟩, hsocket, heq⟩ := Machine.map_eq_ok.mp hstep
  cases heq
  refine ⟨⟨h.encoded, h.distinct, fun key hsender hkey => ?_⟩, rfl⟩
  rcases h.arrivalAt_cases hpossible key hsender with hnone |
    ⟨i, j, message, m, -, hi, hx, hendpoint⟩
  · show packages[key]? = none
    rw [Socket.getElem?_of_arrivalAt_none hnone hsocket, h.unused key hsender hkey]
    rfl
  · exact absurd hx.id?_eq_some (hkey message (List.mem_of_getElem? hi) hendpoint)

/-- One event leaves the network as it should be; what was sent stays sent. -/
theorem WellFormed.step [DecidableEq P] (h : w.WellFormed d) {e : Event E}
    (hpossible : e.Possible d w)
    (hstep : step d w e = .ok (w', o)) : w'.WellFormed d ∧ w.sent <+: w'.sent := by
  cases e with
  | send endpoint buffers =>
    obtain ⟨rng, message, hsend, hwf, -⟩ := h.send hpossible
    rw [hsend] at hstep
    cases hstep
    exact ⟨hwf, List.prefix_append _ _⟩
  | receive origin r =>
    obtain ⟨hwf, hsent⟩ := h.receive hpossible hstep
    exact ⟨hwf, hsent ▸ List.prefix_rfl⟩

end Step

/-! ## An exchange -/

theorem along_of_receives [DecidableEq P] {w : Network E P} {events : List (Event E)}
    (hreceive : ∀ e ∈ events, ∃ origin r, e = .receive origin r)
    (hpossible : ∀ e ∈ events, Event.Possible d w e) :
    Machine.Along (step d) (fun w e => Event.Possible d w e) w events := by
  induction events generalizing w with
  | nil => trivial
  | cons e events ih =>
    refine ⟨hpossible e List.mem_cons_self, fun w' o hstep => ?_⟩
    obtain ⟨origin, r, rfl⟩ := hreceive e List.mem_cons_self
    obtain ⟨⟨packages, outcome⟩, -, heq⟩ := Machine.map_eq_ok.mp hstep
    cases heq
    refine ih (fun e he => hreceive e (List.mem_cons_of_mem _ he)) fun e he => ?_
    have hbefore := hpossible e (List.mem_cons_of_mem _ he)
    obtain ⟨origin', r', rfl⟩ := hreceive e (List.mem_cons_of_mem _ he)
    rcases origin' with _ | ⟨i, j⟩
    · exact hbefore
    · exact hbefore

/-- One socket that sends, with two bytes of payload in a datagram. -/
def pair : Deployment ℕ Unit where
  sender endpoint := if endpoint = 0 then some ⟨(), .littleEndian, 26⟩ else none
  host := .littleEndian
  settings := ⟨#v[69, 67, 65, 76], 5⟩

def pairRng : Unit → Xorshf96 := fun _ => ⟨123456789, 362436069, 521288629⟩

/-- Three bytes, and the datagrams that go out for them. -/
def pairMessage : SentMessage ℕ where
  endpoint := 0
  content := [1, 2, 3]
  datagrams := [
    [69, 67, 65, 76, 5, 0, 0, 0, 1, 0, 0, 0, 215, 163, 173, 94, 2, 0, 0, 0, 3, 0, 0, 0],
    [69, 67, 65, 76, 5, 0, 0, 0, 2, 0, 0, 0, 215, 163, 173, 94, 0, 0, 0, 0, 2, 0, 0, 0, 1, 2],
    [69, 67, 65, 76, 5, 0, 0, 0, 2, 0, 0, 0, 215, 163, 173, 94, 1, 0, 0, 0, 1, 0, 0, 0, 3]]

/-- The receipt of a datagram of the message. -/
def pairReceipt (j : ℕ) (now : TimePoint) : Receipt ℕ :=
  ⟨now, ⟨now, .empty, fun _ => 0⟩, .ofBytes (pairMessage.datagrams.getD j []), 0,
    ⟨.genericError, ""⟩⟩

/-- The message is sent and its datagrams arrive, the last one first. -/
def exchange : List (Event ℕ) :=
  [.send 0 [[1, 2], [3]], .receive (some (0, 2)) (pairReceipt 2 10),
    .receive (some (0, 0)) (pairReceipt 0 12), .receive (some (0, 1)) (pairReceipt 1 15)]

theorem sent_exchange :
    (step pair (init pairRng) (.send 0 [[1, 2], [3]])).toOption.map (fun x => x.1.sent) =
      some [pairMessage] := by
  decide +kernel

theorem gathers_exchange : (⟨(), .littleEndian, 26⟩ : SendingSocket Unit).Gathers [[1, 2], [3]]
    pair.settings.magicHeaderBytes (pairRng ()) := by
  have hall : (createDatagramList .littleEndian [[1, 2], [3]] 26 pair.settings.magicHeaderBytes
      (pairRng ())).toOption.map (fun x => x.1.all fun datagram =>
        decide (datagram.asioBufferList.length ≤ maxBuffers)) = some true := by
    decide +kernel
  intro datagrams rng' hlist
  rw [hlist] at hall
  simpa [Except.toOption] using hall

theorem possible_exchange :
    Machine.Along (step pair) (fun w e => Event.Possible pair w e) (init pairRng) exchange := by
  refine ⟨⟨⟨(), .littleEndian, 26⟩, rfl, by decide, by decide, gathers_exchange,
    fun _ message h => by cases h⟩, fun w o hstep => ?_⟩
  have hsent : w.sent = [pairMessage] := by
    have h := sent_exchange
    rw [hstep] at h
    exact Option.some.inj h
  refine along_of_receives ?_ ?_
  · intro e he
    fin_cases he <;> exact ⟨_, _, rfl⟩
  · intro e he
    fin_cases he <;> exact ⟨pairMessage, by rw [hsent]; rfl, by decide, rfl⟩

theorem run_exchange :
    ∃ w, (Machine.run (step pair) (init pairRng) exchange).2 = .ok w ∧ w.sent = [pairMessage] := by
  have hrun : (Machine.run (step pair) (init pairRng) exchange).2.toOption.map Network.sent =
      some [pairMessage] := by
    decide +kernel
  rcases h : (Machine.run (step pair) (init pairRng) exchange).2 with f | w
  · rw [h] at hrun
    cases hrun
  · rw [h] at hrun
    exact ⟨w, rfl, Option.some.inj hrun⟩

end Network

end Ecaludp
