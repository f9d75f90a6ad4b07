import Ecaludp.Reassembly.Datagram
import Ecaludp.Socket.ReceiveFrom
import Ecaludp.Socket.Magic

/-!
# Nothing but received bytes

The buffers of the pools come with whatever their last users left in them. `forget` replaces the
memory behind a view by the bytes of the view alone; every step on an entry commutes with it
(`Entry.step_forget`), so that what a run returns is a function of the bytes received
(`run_depends_on_received_bytes`). The copy loop writes every byte of the reassembled message once
(`foldlM_copyFragmentLogged`).
-/

namespace Ecaludp

open ByteOrder Reassembly EntryMap

/-! ## Forgetting the memory behind a view -/

/-- The same bytes in memory that holds nothing else. -/
def OwningBuffer.forget (b : OwningBuffer) : OwningBuffer := .ofRawMemory (.ofBytes b.bytes)

@[simp] theorem OwningBuffer.bytes_forget (b : OwningBuffer) : b.forget.bytes = b.bytes := by
  rw [forget, bytes_ofRawMemory, RawMemory.bytes_ofBytes]

@[simp] theorem OwningBuffer.size_forget (b : OwningBuffer) : b.forget.size = b.size := by
  rw [← length_bytes, bytes_forget, length_bytes]

theorem OwningBuffer.forget_eq_forget {a b : OwningBuffer} (h : a.bytes = b.bytes) :
    a.forget = b.forget := by
  rw [forget, forget, h]

namespace FragmentedPackage

def forget (p : FragmentedPackage) : FragmentedPackage :=
  { p with fragments := SlotList.map OwningBuffer.forget p.fragments }

variable {p : FragmentedPackage} {now : TimePoint} {num len : UInt32}

theorem withInfo_forget : p.forget.withInfo now num len = (p.withInfo now num len).forget := by
  unfold withInfo forget
  simp only [SlotList.resize_map]

theorem withRoom_forget : p.forget.withRoom num = (p.withRoom num).forget := by
  unfold withRoom forget
  simp only [SlotList.resize_map, SlotList.length_map]
  split_ifs <;> rfl

theorem withFragment_forget {view : OwningBuffer} :
    p.forget.withFragment now num view.forget = (p.withFragment now num view).forget := by
  unfold withFragment forget SlotList.map
  simp only [List.map_set, Option.map_some]

end FragmentedPackage

/-- The fragment with a view of its bytes alone. -/
def Arrival.forget : Arrival → Arrival
  | .info num len => .info num len
  | .fragment num view => .fragment num (view.map OwningBuffer.forget)

namespace Entry

def forget (entry : Entry) : Entry := entry.map FragmentedPackage.forget

variable {now : TimePoint} {num : UInt32}

theorem package_forget (entry : Entry) : entry.forget.package = entry.package.forget := by
  cases entry <;> rfl

theorem finish_forget (p : FragmentedPackage) :
    finish p.forget = (finish p).map fun r => (forget r.1, r.2) := by
  have hsizes : (p.forget.fragments.reduceOption.map OwningBuffer.size).sum =
      (p.fragments.reduceOption.map OwningBuffer.size).sum := by
    rw [FragmentedPackage.forget, SlotList.reduceOption_map, List.map_map]
    congr 1
    exact List.map_congr_left fun b _ => b.size_forget
  have hbytes : p.forget.fragments.reduceOption.flatMap OwningBuffer.bytes =
      p.fragments.reduceOption.flatMap OwningBuffer.bytes := by
    rw [FragmentedPackage.forget, SlotList.reduceOption_map, List.flatMap_map]
    exact congrArg (p.fragments.reduceOption.flatMap ·) (funext OwningBuffer.bytes_forget)
  have hfilled : SlotList.filled p.forget.fragments = SlotList.filled p.fragments :=
    SlotList.filled_map _ _
  have hlength : p.forget.fragments.length = p.fragments.length := SlotList.length_map _ _
  have hinfo : p.forget.info = p.info := rfl
  unfold finish
  rw [hsizes, hbytes, hfilled, hlength, hinfo]
  split_ifs <;> rfl

theorem store_forget (p : FragmentedPackage) (view : Option OwningBuffer) :
    store now p.forget num (view.map OwningBuffer.forget) =
      (store now p num view).map fun r => (forget r.1, r.2) := by
  have hlength : p.forget.fragments.length = p.fragments.length := SlotList.length_map _ _
  have hget : (SlotList.get p.forget.fragments num.toNat).isSome =
      (SlotList.get p.fragments num.toNat).isSome := by
    rw [FragmentedPackage.forget, SlotList.get_map, Option.isSome_map]
  unfold store
  rw [hlength, hget]
  split_ifs
  · rfl
  · rfl
  · cases view with
    | none => rfl
    | some view =>
      rw [Option.map_some]
      simp only [FragmentedPackage.withFragment_forget]
      exact finish_forget _

/-- One step does the same whatever the memory behind the views. -/
theorem step_forget (entry : Entry) (a : Arrival) :
    step now entry.forget a.forget = (step now entry a).map fun r => (forget r.1, r.2) := by
  cases a with
  | info num len =>
    show (if entry.forget.package.info.fragmentInfoReceived then _ else _) = _
    rw [package_forget, step]
    show (if entry.package.info.fragmentInfoReceived = true then _ else _) = _
    split_ifs with hinfo
    · rfl
    · rw [FragmentedPackage.withInfo_forget, finish_forget]
  | fragment num view =>
    show store now (entry.forget.package.withRoom num) num (view.map OwningBuffer.forget) = _
    rw [package_forget, FragmentedPackage.withRoom_forget, store_forget]
    rfl

end Entry

/-! ## Reading a buffer -/

section Read

variable {buffer buffer' : RawMemory}

theorem size_eq_of_bytes (h : buffer.bytes = buffer'.bytes) : buffer.size = buffer'.size := by
  rw [← RawMemory.length_bytes, h, RawMemory.length_bytes]

theorem bytes_payloadView_eq (hsize : ¬ buffer.size < sizeofHeader) (len : UInt32)
    (hlen : ¬ len > bytesAvailable buffer) :
    (payloadView buffer hsize len hlen).bytes =
      (buffer.bytes.drop sizeofHeader).take len.toNat := by
  rw [OwningBuffer.bytes_eq]
  rfl

theorem arrivalOf_forget (host : ByteOrder) (h : buffer.bytes = buffer'.bytes) :
    (arrivalOf host buffer).map (fun r => (r.1, r.2.forget)) =
      (arrivalOf host buffer').map fun r => (r.1, r.2.forget) := by
  have hsize := size_eq_of_bytes h
  have havailable : bytesAvailable buffer = bytesAvailable buffer' := by
    rw [bytesAvailable, bytesAvailable, hsize]
  by_cases hsmall : buffer.size < sizeofHeader
  · rw [arrivalOf, arrivalOf, dif_pos hsmall, dif_pos (hsize ▸ hsmall)]
  · have hsmall' : ¬ buffer'.size < sizeofHeader := hsize ▸ hsmall
    rw [arrivalOf_eq host hsmall, arrivalOf_eq host hsmall', ← h]
    by_cases hinfo : wordAt buffer.bytes 8 = DatagramType.fragmentedMessageInfo.toUInt32
    · rw [if_pos hinfo, if_pos hinfo]
    · rw [if_neg hinfo, if_neg hinfo]
      by_cases hfragment : wordAt buffer.bytes 8 = DatagramType.fragment.toUInt32
      · rw [if_pos hfragment, if_pos hfragment]
        by_cases hlen : wordAt buffer.bytes 20 > bytesAvailable buffer
        · rw [dif_pos hlen, dif_pos (havailable ▸ hlen)]
        · have hview : (payloadView buffer hsmall _ hlen).forget =
              (payloadView buffer' hsmall' _ (havailable ▸ hlen)).forget :=
            OwningBuffer.forget_eq_forget (by rw [bytes_payloadView_eq, bytes_payloadView_eq, h])
          rw [dif_neg hlen, dif_neg (havailable ▸ hlen)]
          simp only [Option.map_some, Arrival.forget, hview]
      · rw [if_neg hfragment, if_neg hfragment]

theorem otherOutcome_eq_of_bytes (host : ByteOrder) (h : buffer.bytes = buffer'.bytes) :
    otherOutcome host buffer = otherOutcome host buffer' := by
  have hsize := size_eq_of_bytes h
  have havailable : bytesAvailable buffer = bytesAvailable buffer' := by
    rw [bytesAvailable, bytesAvailable, hsize]
  by_cases hsmall : buffer.size < sizeofHeader
  · rw [otherOutcome, otherOutcome, dif_pos hsmall, dif_pos (hsize ▸ hsmall)]
  · have hsmall' : ¬ buffer'.size < sizeofHeader := hsize ▸ hsmall
    have hle : 24 ≤ buffer.size := Nat.not_lt.mp hsmall
    have htype : host.le32toh (Header.load host buffer.data).type =
        host.le32toh (Header.load host buffer'.data).type := by
      refine (headerWord host 8 (by omega)).trans (.trans ?_ (headerWord host 8 (by omega)).symm)
      rw [h]
    have hlen : host.le32toh (Header.load host buffer.data).len =
        host.le32toh (Header.load host buffer'.data).len := by
      refine (headerWord host 20 (by omega)).trans (.trans ?_ (headerWord host 20 (by omega)).symm)
      rw [h]
    rw [otherOutcome, otherOutcome, dif_neg hsmall, dif_neg hsmall']
    simp only [htype, hlen, havailable, bytes_payloadView_eq, h]

end Read

/-! ## The copy loop -/

section Copy

/-- An iteration of the copy loop that also notes the offsets its `memcpy` writes to. -/
def copyFragmentLogged (target : (RawMemory × ℕ) × List ℕ) (fragment : Option OwningBuffer) :
    Except Fault ((RawMemory × ℕ) × List ℕ) := do
  let fragment ← derefFragment fragment
  let memory ← target.1.1.write target.1.2 fragment.bytes
  return ((memory, target.1.2 + fragment.size),
    target.2 ++ List.range' target.1.2 fragment.bytes.length)

theorem foldlM_logged (vs : List OwningBuffer) (target r : RawMemory × ℕ) (log : List ℕ)
    (h : (vs.map some).foldlM copyFragment target = .ok r) :
    (vs.map some).foldlM copyFragmentLogged (target, log) =
      .ok (r, log ++ List.range' target.2 (vs.map OwningBuffer.size).sum) := by
  induction vs generalizing target log with
  | nil =>
    cases h
    simp
    rfl
  | cons v vs ih =>
    rw [List.map_cons, List.foldlM_cons] at h ⊢
    rcases hwrite : target.1.write target.2 v.bytes with f | memory
    · have hstep : copyFragment target (some v) = .error f := by
        show (target.1.write target.2 v.bytes >>= _) = _
        rw [hwrite]
        rfl
      rw [hstep] at h
      cases h
    · have hstep : copyFragment target (some v) = .ok (memory, target.2 + v.size) := by
        show (target.1.write target.2 v.bytes >>= _) = _
        rw [hwrite]
        rfl
      have hlogged : copyFragmentLogged (target, log) (some v) =
          .ok ((memory, target.2 + v.size), log ++ List.range' target.2 v.size) := by
        show (target.1.write target.2 v.bytes >>= _) = _
        rw [hwrite, ← OwningBuffer.length_bytes v]
        rfl
      rw [hstep] at h
      rw [hlogged]
      refine (ih _ _ h).trans ?_
      rw [List.append_assoc, List.map_cons, List.sum_cons, List.range'_append_1]

/-- When the size check has passed, the copy loop writes to every offset of the resized result once,
in order, and leaves the memory behind it alone. -/
theorem reassemblePackage_writes (env : Env) {p : FragmentedPackage}
    (h : cummulatedPackageSizes p.fragments = .ok p.info.totalSizeBytes.toNat) :
    ∃ memory, reassemblePackage env p = .ok (.ofRawMemory memory) ∧
      memory.size = p.info.totalSizeBytes.toNat ∧
      p.fragments.foldlM copyFragmentLogged
          ((env.pooled.resize p.info.totalSizeBytes.toNat env.fresh, 0), []) =
        .ok ((memory, memory.size), List.range memory.size) ∧
      memory.data.drop memory.size =
        (env.pooled.resize p.info.totalSizeBytes.toNat env.fresh).data.drop memory.size := by
  have hfilled : SlotList.filled p.fragments = p.fragments.length := by
    by_contra hnot
    rw [cummulatedPackageSizes_of_not_filled hnot] at h
    cases h
  rw [cummulatedPackageSizes_of_filled hfilled, Except.ok.injEq] at h
  obtain ⟨memory, hfold, hsize, hdata⟩ := foldlM_copy p.fragments.reduceOption
    (env.pooled.resize p.info.totalSizeBytes.toNat env.fresh) 0
    (by rw [Nat.zero_add, h, RawMemory.size_resize])
  have hlogged := foldlM_logged _ _ _ [] hfold
  rw [← SlotList.eq_map_some_of_filled hfilled] at hfold hlogged
  rw [Nat.zero_add, h] at hfold hlogged hdata
  rw [RawMemory.size_resize] at hsize
  refine ⟨memory, ?_, hsize, ?_, ?_⟩
  · show (p.fragments.foldlM copyFragment _ >>= _) = _
    rw [hfold]
    rfl
  · rw [hlogged, hsize, List.nil_append, List.range_eq_range']
  · have hlength : (p.fragments.reduceOption.flatMap OwningBuffer.bytes).length =
        p.info.totalSizeBytes.toNat := by
      rw [← h, List.length_flatMap]
      simp
    rw [hdata, hsize, List.take_zero, List.nil_append, List.drop_left' hlength]

end Copy

/-! ## Runs -/

section Runs

variable {E : Type} [LinearOrder E]

/-- The packages are the same but for the memory behind the views. -/
def SameContent (packages packages' : Reassembly E) : Prop :=
  ∀ key : FragmentedPackageKey E, Entry.forget packages[key]? = Entry.forget packages'[key]?

/-- One call returns the same for the same bytes in use, wherever they are. -/
theorem agree_of_bytes (host : ByteOrder) {packages packages' : Reassembly E}
    (h : SameContent packages packages') {env env' : Env} (hnow : env.now = env'.now)
    {buffer buffer' : RawMemory} (hbytes : buffer.bytes = buffer'.bytes) (senderEndpoint : E)
    (error : Error) :
    Machine.Agree SameContent
      (Reassembly.step host packages (.handleDatagram env buffer senderEndpoint error))
      (Reassembly.step host packages' (.handleDatagram env' buffer' senderEndpoint error)) := by
  have hforget := arrivalOf_forget host hbytes
  rcases harr : arrivalOf host buffer with _ | ⟨id, a⟩ <;>
    rcases harr' : arrivalOf host buffer' with _ | ⟨id', a'⟩ <;> rw [harr, harr'] at hforget
  · rw [step_of_arrivalOf_none host env buffer senderEndpoint error packages harr,
      step_of_arrivalOf_none host env' buffer' senderEndpoint error packages' harr',
      otherOutcome_eq_of_bytes host hbytes]
    exact .ok _ h
  · cases hforget
  · cases hforget
  · simp only [Option.map_some, Option.some.injEq, Prod.mk.injEq] at hforget
    obtain ⟨rfl, ha⟩ := hforget
    rw [step_of_arrivalOf host env buffer senderEndpoint error packages harr,
      step_of_arrivalOf host env' buffer' senderEndpoint error packages' harr', ← hnow]
    set key : FragmentedPackageKey E := ⟨senderEndpoint, id⟩
    have hstep : Entry.step env.now (Entry.forget packages[key]?) a.forget = _ :=
      Entry.step_forget packages[key]? a
    rw [h key, ha, Entry.step_forget] at hstep
    rcases hentry : Entry.step env.now packages[key]? a with f | ⟨entry, o⟩ <;>
      rcases hentry' : Entry.step env.now packages'[key]? a' with f' | ⟨entry', o'⟩ <;>
      rw [hentry, hentry'] at hstep
    · cases hstep
      exact .error f
    · cases hstep
    · cases hstep
    · simp only [Except.map, Except.ok.injEq, Prod.mk.injEq] at hstep
      obtain ⟨hsame, rfl⟩ := hstep
      refine .ok (some _) fun key' => ?_
      rw [getElem?_put, getElem?_put]
      split_ifs
      · exact hsame.symm
      · exact h key'

theorem SameContent.removeOldPackages {packages packages' : Reassembly E}
    (h : SameContent packages packages') (maxAge : TimePoint) :
    SameContent (packages.removeOldPackages maxAge) (packages'.removeOldPackages maxAge) := by
  intro key
  have hprune (entry : Entry) : Entry.forget (entry.prune maxAge) =
      (Entry.forget entry).prune maxAge := by
    rw [Entry.prune, Entry.prune, Entry.forget, Entry.forget, Option.filter_map]
    rfl
  rw [getElem?_removeOldPackages, getElem?_removeOldPackages, hprune, hprune, h key]

theorem headerCommon_eq_of_bytes {buffer buffer' : RawMemory} (h : buffer.bytes = buffer'.bytes)
    (hsize : ¬ buffer.size < sizeofHeaderCommon) :
    HeaderCommon.load buffer.data = HeaderCommon.load buffer'.data := by
  rw [load_data (Nat.not_lt.mp hsize), load_data (size_eq_of_bytes h ▸ Nat.not_lt.mp hsize), h]

theorem passesHeader_of_bytes (settings : SocketSettings) {buffer buffer' : RawMemory}
    (h : buffer.bytes = buffer'.bytes) : PassesHeader settings buffer ↔
    PassesHeader settings buffer' := by
  unfold PassesHeader
  rw [← size_eq_of_bytes h]
  refine and_congr_right fun hsize => ?_
  rw [headerCommon_eq_of_bytes h hsize]

theorem headerError_of_bytes (settings : SocketSettings) {buffer buffer' : RawMemory}
    (h : buffer.bytes = buffer'.bytes) :
    headerError settings buffer = headerError settings buffer' := by
  unfold headerError
  rw [← size_eq_of_bytes h]
  by_cases hsize : buffer.size < sizeofHeaderCommon
  · rw [if_pos hsize, if_pos hsize]
  · rw [headerCommon_eq_of_bytes h hsize]

theorem handleDatagram_proper (host : ByteOrder) (env : Env) (buffer : RawMemory)
    (senderEndpoint : E) (error : Error) (packages packages' : Reassembly E) (o : Outcome)
    (h : observed (handleDatagram host env buffer senderEndpoint error packages) =
      .ok (packages', o)) :
    o.Proper := by
  rcases harr : arrivalOf host buffer with _ | ⟨id, a⟩
  · rw [handleDatagram_of_arrivalOf_none host env buffer senderEndpoint error packages harr] at h
    cases h
    exact otherOutcome_proper host buffer
  · rw [handleDatagram_eq_step host env buffer senderEndpoint error packages harr] at h
    obtain ⟨x, hx, hxo⟩ := Machine.map_eq_ok.mp h
    cases hxo
    exact Entry.step_proper hx

theorem Socket.step_of_passesHeader (host : ByteOrder) {settings : SocketSettings} {r : Receipt E}
    (h : PassesHeader settings r.buffer) (packages : Reassembly E) :
    (Socket.step host settings packages r).map (fun x => (x.1, some x.2)) =
      Reassembly.step host (packages.removeOldPackages (Socket.limit settings r))
        (.handleDatagram r.env r.buffer r.senderEndpoint r.error) := by
  rw [Socket.step_eq_observed, handleReceived_of_passesHeader h, Ecaludp.step_eq_observed,
    map_dropOnError]
  · rfl
  · exact handleDatagram_proper host r.env r.buffer r.senderEndpoint r.error _

/-- One call of a socket returns the same for the same bytes in use. -/
theorem Socket.agree_of_bytes (host : ByteOrder) (settings : SocketSettings)
    {packages packages' : Reassembly E} (h : SameContent packages packages') {r r' : Receipt E}
    (hprune : r.pruneNow = r'.pruneNow) (hnow : r.env.now = r'.env.now)
    (hbytes : r.buffer.bytes = r'.buffer.bytes) (hsender : r.senderEndpoint = r'.senderEndpoint)
    (herror : r.error = r'.error) :
    Machine.Agree SameContent (Socket.step host settings packages r)
      (Socket.step host settings packages' r') := by
  have hlimit : Socket.limit settings r = Socket.limit settings r' := by
    rw [Socket.limit, Socket.limit, hprune]
  have hpruned := h.removeOldPackages (Socket.limit settings r')
  by_cases hpasses : PassesHeader settings r.buffer
  · have hstep := Socket.step_of_passesHeader host hpasses packages
    have hstep' := Socket.step_of_passesHeader host
      ((passesHeader_of_bytes settings hbytes).mp hpasses) packages'
    have hagree := Ecaludp.agree_of_bytes host hpruned hnow hbytes r.senderEndpoint r.error
    rw [hlimit] at hstep
    rw [← hsender, ← herror] at hstep'
    rw [← hstep, ← hstep'] at hagree
    exact hagree.of_map_output (Option.some_injective _)
  · have hpasses' := (passesHeader_of_bytes settings hbytes).not.mp hpasses
    rw [Socket.step_eq_observed, Socket.step_eq_observed,
      handleReceived_of_not_passesHeader hpasses, handleReceived_of_not_passesHeader hpasses',
      headerError_of_bytes settings hbytes,
      show r.pruneNow - settings.maxReassemblyAge = Socket.limit settings r' from hlimit]
    exact .ok _ hpruned

/-- The same bytes from the same sender at the same time. -/
def SameReceived (d d' : ReceivedDatagram E) : Prop :=
  d.bytes = d'.bytes ∧ d.senderEndpoint = d'.senderEndpoint ∧ d.env.now = d'.env.now

/-- The datagram received into buffers that were never used. -/
def ReceivedDatagram.clean (d : ReceivedDatagram E) : ReceivedDatagram E :=
  { d with
    pooled := .empty, fresh := fun _ => 0, pruneNow := 0
    env := ⟨d.env.now, .empty, fun _ => 0⟩ }

omit [LinearOrder E] in
theorem ReceivedDatagram.clean_eq_clean {d d' : ReceivedDatagram E} (h : SameReceived d d') :
    d.clean = d'.clean := by
  obtain ⟨bytes, hle, sender, pooled, fresh, pruneNow, env⟩ := d
  obtain ⟨bytes', hle', sender', pooled', fresh', pruneNow', env'⟩ := d'
  obtain ⟨rfl, rfl, hnow⟩ := h
  unfold ReceivedDatagram.clean
  simp only at hnow ⊢
  rw [hnow]

omit [LinearOrder E] in
theorem ReceivedDatagram.receive_eq_ok (d : ReceivedDatagram E) :
    ∃ buffer, d.receive = .ok buffer ∧ buffer.bytes = d.bytes := by
  have hlength := d.length_le
  have hroom : 0 + d.bytes.length ≤ (d.pooled.resize maxUdpDatagramSize d.fresh).size := by
    rw [Nat.zero_add]
    exact hlength
  obtain ⟨m, hwrite, hsize, hdata⟩ := RawMemory.write_eq_ok hroom
  refine ⟨m.resize d.bytes.length d.fresh, ?_, ?_⟩
  · show (RawMemory.write _ 0 d.bytes >>= _) = _
    rw [hwrite]
    rfl
  · have hcapacity : ¬ d.bytes.length > m.capacity := by
      have hle := m.size_le
      rw [hsize, RawMemory.size_resize] at hle
      exact Nat.not_lt.mpr (Nat.le_trans hlength hle)
    show (m.reservedData d.bytes.length d.fresh).take d.bytes.length = d.bytes
    rw [RawMemory.reservedData, if_neg hcapacity, hdata, List.take_zero, List.nil_append,
      List.take_left' rfl]

/-- A datagram is received into a buffer of the pool and handed to `handle_datagram`. -/
def receiveStep (host : ByteOrder) (packages : Reassembly E) (d : ReceivedDatagram E) :
    Except Fault (Reassembly E × Option Outcome) := do
  let buffer ← d.receive
  Reassembly.step host packages (.handleDatagram d.env buffer d.senderEndpoint ⟨.genericError, ""⟩)

/-- The call with a buffer that holds the bytes of the datagram and nothing else. -/
def ReceivedDatagram.call (d : ReceivedDatagram E) : Call E :=
  .handleDatagram d.env (.ofBytes d.bytes) d.senderEndpoint ⟨.genericError, ""⟩

/-- The buffers of the pool are as good as such buffers. -/
theorem run_receiveStep (host : ByteOrder) (packages : Reassembly E)
    (datagrams : List (ReceivedDatagram E)) :
    (Machine.run (receiveStep host) packages datagrams).1 =
      (Machine.run (Reassembly.step host) packages (datagrams.map ReceivedDatagram.call)).1 := by
  have hstart : SameContent packages packages := fun _ => rfl
  refine (Machine.run_eq_of_agree (fun s t d _ hR => ?_) hstart).1
  obtain ⟨buffer, hreceive, hbytes⟩ := d.receive_eq_ok
  unfold receiveStep
  rw [hreceive]
  exact agree_of_bytes host hR rfl (hbytes.trans (RawMemory.bytes_ofBytes _).symm)
    d.senderEndpoint _

/-- What a step does, it does with clean buffers as well. -/
theorem agree_clean (host : ByteOrder) {packages packages' : Reassembly E}
    (h : SameContent packages packages') (d : ReceivedDatagram E) :
    Machine.Agree SameContent (receiveStep host packages d)
      (receiveStep host packages' d.clean) := by
  obtain ⟨buffer, hreceive, hbytes⟩ := d.receive_eq_ok
  obtain ⟨buffer', hreceive', hbytes'⟩ := d.clean.receive_eq_ok
  unfold receiveStep
  rw [hreceive, hreceive']
  have hnow : d.env.now = d.clean.env.now := rfl
  exact agree_of_bytes host h hnow (hbytes.trans hbytes'.symm) d.senderEndpoint ⟨.genericError, ""⟩

/-- Delivered bytes are received bytes. Two runs that receive the same bytes from the same senders
at the same times return the same messages and error codes, and fault alike, whatever their pooled
buffers held before; no call depends on what stands behind the bytes in use; and the copy of a
complete message writes every byte of the result once and none behind it. -/
theorem run_depends_on_received_bytes (host : ByteOrder) (packages : Reassembly E)
    {datagrams datagrams' : List (ReceivedDatagram E)}
    (h : List.Forall₂ SameReceived datagrams datagrams') :
    (Machine.run (receiveStep host) packages datagrams).1 =
        (Machine.run (receiveStep host) packages datagrams').1 ∧
      (∀ f, (Machine.run (receiveStep host) packages datagrams).2 = .error f ↔
        (Machine.run (receiveStep host) packages datagrams').2 = .error f) ∧
      (∀ (s s' : Reassembly E) (env env' : Env) (buffer buffer' : RawMemory) (senderEndpoint : E)
        (error : Error), SameContent s s' → env.now = env'.now → buffer.bytes = buffer'.bytes →
        Machine.Agree SameContent
          (Reassembly.step host s (.handleDatagram env buffer senderEndpoint error))
          (Reassembly.step host s' (.handleDatagram env' buffer' senderEndpoint error))) ∧
      ∀ (env : Env) (p : FragmentedPackage),
        cummulatedPackageSizes p.fragments = .ok p.info.totalSizeBytes.toNat →
        ∃ memory, reassemblePackage env p = .ok (.ofRawMemory memory) ∧
          memory.size = p.info.totalSizeBytes.toNat ∧
          p.fragments.foldlM copyFragmentLogged
              ((env.pooled.resize p.info.totalSizeBytes.toNat env.fresh, 0), []) =
            .ok ((memory, memory.size), List.range memory.size) ∧
          memory.data.drop memory.size =
            (env.pooled.resize p.info.totalSizeBytes.toNat env.fresh).data.drop memory.size := by
  have hclean : datagrams.map ReceivedDatagram.clean = datagrams'.map ReceivedDatagram.clean := by
    rw [← List.forall₂_eq_eq_eq, List.forall₂_map_left_iff, List.forall₂_map_right_iff]
    exact h.imp fun _ _ => ReceivedDatagram.clean_eq_clean
  have hstart : SameContent packages packages := fun _ => rfl
  obtain ⟨houts, hend⟩ := Machine.run_eq_of_agree
    (fun s t (d : ReceivedDatagram E) (_ : d ∈ datagrams) hR => agree_clean host hR d) hstart
  obtain ⟨houts', hend'⟩ := Machine.run_eq_of_agree
    (fun s t (d : ReceivedDatagram E) (_ : d ∈ datagrams') hR => agree_clean host hR d) hstart
  rw [hclean] at houts hend
  refine ⟨houts.trans houts'.symm, fun f => ?_,
    fun s s' env env' buffer buffer' senderEndpoint error
    hcontent hnow hbytes => agree_of_bytes host hcontent hnow hbytes senderEndpoint error,
    fun env p hsizes => reassemblePackage_writes env hsizes⟩
  rcases hend with ⟨e, h₁, h₂⟩ | ⟨s, t, h₁, h₂, -⟩ <;>
    rcases hend' with ⟨e', h₁', h₂'⟩ | ⟨s', t', h₁', h₂', -⟩ <;> rw [h₁, h₁'] <;>
    rw [h₂] at h₂' <;> cases h₂'
  · rfl
  · simp

/-- A datagram that is received while the pools hold buffers full of `stale`. -/
def receivedIntoStale (stale : UInt8) (bytes : List UInt8)
    (length_le : bytes.length ≤ maxUdpDatagramSize) : ReceivedDatagram ℕ :=
  ⟨bytes, length_le, 1, .ofBytes (List.replicate 40 stale), fun _ => stale, 0,
    ⟨0, .ofBytes (List.replicate 40 stale), fun _ => stale⟩⟩

/-- The info and the fragment of a message of two bytes, and a message of one byte in one
datagram. -/
def staleRun (stale : UInt8) : List (ReceivedDatagram ℕ) :=
  [receivedIntoStale stale
      [69, 67, 65, 76, 5, 0, 0, 0, 1, 0, 0, 0, 7, 0, 0, 0, 1, 0, 0, 0, 2, 0, 0, 0] (by decide),
    receivedIntoStale stale
      [69, 67, 65, 76, 5, 0, 0, 0, 2, 0, 0, 0, 7, 0, 0, 0, 0, 0, 0, 0, 2, 0, 0, 0, 8, 9]
      (by decide),
    receivedIntoStale stale
      [69, 67, 65, 76, 5, 0, 0, 0, 3, 0, 0, 0, 0, 0, 0, 0, 1, 0, 0, 0, 1, 0, 0, 0, 6] (by decide)]

theorem sameReceived_stale (stale stale' : UInt8) :
    List.Forall₂ SameReceived (staleRun stale) (staleRun stale') :=
  .cons ⟨rfl, rfl, rfl⟩ (.cons ⟨rfl, rfl, rfl⟩ (.cons ⟨rfl, rfl, rfl⟩ .nil))

theorem run_two_pools :
    (Machine.run (receiveStep .littleEndian) (∅ : Reassembly ℕ) (staleRun 0)).1 =
        [some ⟨none, .ok⟩, some ⟨some [8, 9], .ok⟩, some ⟨some [6], .ok⟩] ∧
      ∀ stale, (Machine.run (receiveStep .littleEndian) (∅ : Reassembly ℕ) (staleRun stale)).1 =
        (Machine.run (receiveStep .littleEndian) (∅ : Reassembly ℕ) (staleRun 0)).1 := by
  refine ⟨?_, fun stale =>
    (run_depends_on_received_bytes .littleEndian ∅ (sameReceived_stale stale 0)).1⟩
  rw [run_receiveStep]
  decide +kernel

end Runs

end Ecaludp
