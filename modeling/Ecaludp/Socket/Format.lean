import Ecaludp.Format
import Ecaludp.Socket.Inert
import Ecaludp.Socket.ReceivedBytes

/-!
# What a socket reads

A socket reads a buffer as the format says (`reads_of_encoded`, `unread_of_parse`). So a datagram
that is none of the format is rejected in every state, any other one is taken by a socket without
packages (`accepted_iff`), and what a run returns depends on what the datagrams say and nothing
else, not even the byte order of the host (`run_depends_on_datagrams`).
-/

namespace Ecaludp

open ByteOrder Reassembly EntryMap

variable {E : Type} [LinearOrder E] {settings : SocketSettings} {buffer : RawMemory}
    {host : ByteOrder}

/-! ## Reading a buffer -/

theorem passesHeader_iff :
    PassesHeader settings buffer ↔ sizeofHeaderCommon ≤ buffer.size ∧
      (magicAt buffer.bytes).Matches settings.magicHeaderBytes ∧ byteAt buffer.bytes 4 = 5 := by
  unfold PassesHeader
  rw [Nat.not_lt]
  refine and_congr_right fun hsize => ?_
  rw [load_data hsize, strncmp_magic_eq_zero_iff]
  rfl

theorem toNat_bytesAvailable_of_lt (hsize : sizeofHeader ≤ buffer.size)
    (hlt : buffer.size < 2 ^ 32) :
    (bytesAvailable buffer).toNat = (buffer.bytes.drop sizeofHeader).length := by
  rw [bytesAvailable, UInt32.toNat_sub, UInt32.toNat_ofNat', List.length_drop,
    RawMemory.length_bytes]
  simp only [sizeofHeader, UInt32.reduceToNat] at hsize ⊢
  omega

theorem otherOutcome_eq (host : ByteOrder) (hsize : ¬ buffer.size < sizeofHeader) :
    otherOutcome host buffer =
      if wordAt buffer.bytes 8 = DatagramType.nonFragmentedMessage.toUInt32 then
        if wordAt buffer.bytes 20 > bytesAvailable buffer then ⟨none, .malformedDatagram⟩
        else ⟨some ((buffer.bytes.drop sizeofHeader).take (wordAt buffer.bytes 20).toNat), .ok⟩
      else ⟨none, .malformedDatagram⟩ := by
  have hle : 24 ≤ buffer.size := Nat.not_lt.mp hsize
  have htype : host.le32toh (Header.load host buffer.data).type = wordAt buffer.bytes 8 :=
    headerWord host 8 (by omega)
  have hlen : host.le32toh (Header.load host buffer.data).len = wordAt buffer.bytes 20 :=
    headerWord host 20 (by omega)
  rw [otherOutcome, dif_neg hsize]
  simp only [htype, hlen, bytes_payloadView_eq]
  split_ifs <;> rfl

/-- A socket on this host reads the buffer as the datagram. -/
def Reads (host : ByteOrder) (settings : SocketSettings) (buffer : RawMemory) : Datagram → Prop
  | .fragmentedMessageInfo id num len => Socket.arrivalOf host settings buffer =
      some (id, .info num len)
  | .fragment id num payload => ∃ view, Socket.arrivalOf host settings buffer =
      some (id, .fragment num (some view)) ∧ view.bytes = payload
  | .nonFragmentedMessage payload => Socket.arrivalOf host settings buffer = none ∧
      Socket.otherOutcome host settings buffer = ⟨some payload, .ok⟩

/-- A socket on this host has no use for the buffer: it rejects it whatever its packages, at the
latest when it looks for the slot of the fragment. -/
inductive Unread (host : ByteOrder) (settings : SocketSettings) (buffer : RawMemory) : Prop
  | other (h : Socket.arrivalOf host settings buffer = none)
      (hmessage : (Socket.otherOutcome host settings buffer).message = none)
      (hcode : Rejection (Socket.otherOutcome host settings buffer).errorCode)
  | fragment (id : Int32) (num : UInt32) (view : Option OwningBuffer)
      (h : Socket.arrivalOf host settings buffer = some (id, .fragment num view))
      (hview : num.toNat + 1 < 2 ^ 32 → view = none)

/-- The content of a buffer with a header is read as the format says. -/
theorem reads_content (hsize : sizeofHeader ≤ buffer.size) (hlt : buffer.size < 2 ^ 32)
    (hpasses : PassesHeader settings buffer) :
    match Datagram.parseContent (wordAt buffer.bytes 8) (wordAt buffer.bytes 12).toInt32
      (wordAt buffer.bytes 16) (wordAt buffer.bytes 20) (buffer.bytes.drop sizeofHeader) with
    | some d => Reads host settings buffer d
    | none => Unread host settings buffer := by
  have hnot : ¬ buffer.size < sizeofHeader := Nat.not_lt.mpr hsize
  have harr : Socket.arrivalOf host settings buffer = arrivalOf host buffer := if_pos hpasses
  have hother : Socket.otherOutcome host settings buffer = otherOutcome host buffer :=
    if_pos hpasses
  have hlen : wordAt buffer.bytes 20 > bytesAvailable buffer ↔
      (buffer.bytes.drop sizeofHeader).length < (wordAt buffer.bytes 20).toNat := by
    rw [gt_iff_lt, UInt32.lt_iff_toNat_lt, toNat_bytesAvailable_of_lt hsize hlt]
  rw [arrivalOf_eq host hnot] at harr
  rw [otherOutcome_eq host hnot] at hother
  unfold Datagram.parseContent
  by_cases hinfo : wordAt buffer.bytes 8 = DatagramType.fragmentedMessageInfo.toUInt32
  · rw [if_pos hinfo] at harr ⊢
    exact harr
  · rw [if_neg hinfo] at harr ⊢
    by_cases hfragment : wordAt buffer.bytes 8 = DatagramType.fragment.toUInt32
    · rw [if_pos hfragment] at harr
      split_ifs with hshort hnum
      · rw [dif_pos (hlen.mpr hshort)] at harr
        exact .fragment _ _ _ harr fun _ => rfl
      · rw [dif_neg (hlen.not.mpr hshort)] at harr
        exact ⟨_, harr, bytes_payloadView_eq hnot _ (hlen.not.mpr hshort)⟩
      · exact .fragment _ _ _ harr fun hlt => absurd hlt hnum
    · rw [if_neg hfragment] at harr
      by_cases hmessage : wordAt buffer.bytes 8 = DatagramType.nonFragmentedMessage.toUInt32
      · rw [if_pos hmessage] at hother
        split_ifs with hshort
        · rw [if_pos (hlen.mpr hshort)] at hother
          exact .other harr (by rw [hother]) (by rw [hother]; exact Or.inl rfl)
        · rw [if_neg (hlen.not.mpr hshort)] at hother
          exact ⟨harr, hother⟩
      · rw [if_neg hmessage] at hother
        split_ifs <;> exact .other harr (by rw [hother]) (by rw [hother]; exact Or.inl rfl)

/-- A buffer without a header of version 5 with the magic is not read. -/
theorem unread_of_header (h : ¬ (sizeofHeader ≤ buffer.bytes.length ∧
    (magicAt buffer.bytes).Matches settings.magicHeaderBytes ∧ byteAt buffer.bytes 4 = 5)) :
    Unread host settings buffer := by
  rw [RawMemory.length_bytes] at h
  by_cases hpasses : PassesHeader settings buffer
  · have hsmall : buffer.size < sizeofHeader := by
      by_contra hnot
      exact h ⟨Nat.not_lt.mp hnot, (passesHeader_iff.mp hpasses).2⟩
    have hother : Socket.otherOutcome host settings buffer = ⟨none, .malformedDatagram⟩ := by
      rw [Socket.otherOutcome, if_pos hpasses, otherOutcome, dif_pos hsmall]
    refine .other ?_ (by rw [hother]) (by rw [hother]; exact Or.inl rfl)
    rw [Socket.arrivalOf, if_pos hpasses, arrivalOf, dif_pos hsmall]
  · have hother : Socket.otherOutcome host settings buffer =
        ⟨none, (headerError settings buffer).errorCode⟩ :=
      if_neg hpasses
    refine .other (if_neg hpasses) (by rw [hother]) ?_
    rw [hother, headerError]
    split_ifs
    · exact Or.inl rfl
    · exact Or.inl rfl
    · exact Or.inr (Or.inr rfl)

theorem reads_parse (host : ByteOrder) (settings : SocketSettings) (hlt : buffer.size < 2 ^ 32) :
    match Datagram.parse settings.magicHeaderBytes buffer.bytes with
    | some d => Reads host settings buffer d
    | none => Unread host settings buffer := by
  unfold Datagram.parse
  by_cases hheader : sizeofHeader ≤ buffer.bytes.length ∧
      (magicAt buffer.bytes).Matches settings.magicHeaderBytes ∧ byteAt buffer.bytes 4 = 5
  · rw [if_pos hheader]
    rw [RawMemory.length_bytes] at hheader
    refine reads_content hheader.1 hlt (passesHeader_iff.mpr ⟨Nat.le_trans ?_ hheader.1, hheader.2⟩)
    exact Nat.le_add_right 5 19
  · rw [if_neg hheader]
    exact unread_of_header hheader

/-- The bytes of a datagram are read as that datagram. -/
theorem reads_of_encoded (host : ByteOrder) (hlt : buffer.size < 2 ^ 32) {d : Datagram}
    (h : d.Encoded settings.magicHeaderBytes buffer.bytes) : Reads host settings buffer d := by
  have hreads := reads_parse host settings hlt
  rwa [Datagram.parse_eq_some_iff.mpr h] at hreads

theorem unread_of_parse (host : ByteOrder) (hlt : buffer.size < 2 ^ 32)
    (h : Datagram.parse settings.magicHeaderBytes buffer.bytes = none) :
    Unread host settings buffer := by
  have hreads := reads_parse host settings hlt
  rwa [h] at hreads

/-! ## What is accepted -/

namespace Socket

/-- The call does not fault and does not reject the datagram. -/
def Accepts (host : ByteOrder) (settings : SocketSettings) (packages : Reassembly E)
    (r : Receipt E) : Prop :=
  ∃ packages' o, step host settings packages r = .ok (packages', o) ∧ ¬ Rejection o.errorCode

/-- The entry that a call leaves for a buffer that is not read: at most a fragment made room for
itself. -/
theorem step_of_unread (packages : Reassembly E) {r : Receipt E}
    (h : Unread host settings r.buffer) :
    ∃ packages' o, step host settings packages r = .ok (packages', o) ∧ o.message = none ∧
      Rejection o.errorCode ∧ ∀ key : FragmentedPackageKey E,
        packages'[key]? = Entry.prune (limit settings r) packages[key]? ∨ ∃ a,
          packages'[key]? = (Entry.prune (limit settings r) packages[key]?).rejected a := by
  cases h with
  | other harr hmessage hcode =>
    refine ⟨_, _, step_of_arrivalOf_none host packages harr, hmessage, hcode, fun key => Or.inl ?_⟩
    rw [getElem?_removeOldPackages]
  | fragment id num view harr hview =>
    have hchecked : ∀ entry : Entry, Entry.checked r.env.now entry (.fragment num view) = none := by
      intro entry
      show Entry.stored r.env.now (entry.package.withRoom num) num view = none
      unfold Entry.stored
      split_ifs with hrange hdup
      · rfl
      · rfl
      · rw [hview, Option.map_none]
        have hlt := UInt32.lt_iff_toNat_lt.mp (UInt32.not_le.mp hrange)
        have hlength := UInt32.toNat_lt (UInt32.ofNat (entry.package.withRoom num).fragments.length)
        omega
    obtain ⟨code, hcode, hrejected⟩ := Entry.step_of_not_checked (hchecked
      (Entry.prune (limit settings r) packages[(⟨r.senderEndpoint, id⟩ : FragmentedPackageKey E)]?))
    have hstep := step_of_arrivalOf host packages harr
    rw [hrejected] at hstep
    refine ⟨_, _, hstep, rfl, ?_, fun key => ?_⟩
    · rcases hcode with rfl | rfl
      · exact Or.inl rfl
      · exact Or.inr (Or.inl rfl)
    · rw [getElem?_put, getElem?_removeOldPackages]
      split_ifs with hkey
      · subst hkey
        exact Or.inr ⟨.fragment num view, rfl⟩
      · exact Or.inl rfl

theorem accepts_of_checked {packages : Reassembly E} {r : Receipt E} {id : Int32} {a : Arrival}
    {p : FragmentedPackage} (h : arrivalOf host settings r.buffer = some (id, a))
    (hchecked : Entry.checked r.env.now (Entry.prune (limit settings r)
      packages[(⟨r.senderEndpoint, id⟩ : FragmentedPackageKey E)]?) a = some p) (hp : p.Counted) :
    Accepts host settings packages r := by
  obtain ⟨⟨entry, o⟩, hfinish⟩ := Entry.exists_finish_of_counted hp
  have hstep := step_of_arrivalOf host packages h
  rw [Entry.step_of_checked hchecked, hfinish] at hstep
  exact ⟨_, _, hstep, Entry.finish_not_rejection hfinish⟩

/-- A socket without packages takes a datagram of the format. -/
theorem accepts_of_reads {r : Receipt E} {d : Datagram} (h : Reads host settings r.buffer d)
    (hnum : ∀ id num payload, d = .fragment id num payload → num.toNat + 1 < 2 ^ 32) :
    Accepts host settings (∅ : Reassembly E) r := by
  have hempty : ∀ key : FragmentedPackageKey E,
      Entry.prune (limit settings r) (∅ : Reassembly E)[key]? = none := by
    intro key
    rw [Std.ExtTreeMap.getElem?_empty]
    rfl
  cases d with
  | fragmentedMessageInfo id num len =>
    refine accepts_of_checked (p := FragmentedPackage.withInfo r.env.now num len {}) h ?_ ?_
    · rw [hempty]
      rfl
    · exact FragmentedPackage.counted_default.withInfo _ _
        (FragmentedPackage.not_cutsOff.mpr fun i _ => FragmentedPackage.part_default i)
  | fragment id num payload =>
    obtain ⟨view, harr, -⟩ := h
    have hroom : num.toNat < (FragmentedPackage.withRoom num {}).fragments.length :=
      FragmentedPackage.lt_length_withRoom rfl (hnum _ _ _ rfl)
    have hnone : SlotList.get (FragmentedPackage.withRoom num {}).fragments num.toNat = none := by
      rw [FragmentedPackage.get_withRoom]
      exact SlotList.get_nil _
    refine accepts_of_checked harr ?_
      ((FragmentedPackage.counted_default.withRoom num).withFragment hroom hnone r.env.now view)
    rw [hempty]
    exact Entry.stored_of_new (FragmentedPackage.counted_default.withRoom num).length_lt hroom hnone
  | nonFragmentedMessage payload =>
    refine ⟨_, _, step_of_arrivalOf_none host _ h.1, ?_⟩
    rw [h.2]
    simp [Rejection]

/-- The format is what is accepted. A datagram is taken in some state if and only if it is one of
the format, and then a socket without packages takes it. -/
theorem accepted_iff (host : ByteOrder) (settings : SocketSettings) {r : Receipt E}
    (hsize : r.buffer.size < 2 ^ 32) :
    List.TFAE [∃ d : Datagram, d.Encoded settings.magicHeaderBytes r.buffer.bytes,
      Accepts host settings (∅ : Reassembly E) r,
      ∃ packages, Accepts host settings packages r] := by
  tfae_have 1 → 2 := by
    rintro ⟨d, hd⟩
    refine accepts_of_reads (reads_of_encoded host hsize hd) fun id num payload heq => ?_
    exact (heq ▸ hd).num_lt
  tfae_have 2 → 3 := fun h => ⟨∅, h⟩
  tfae_have 3 → 1 := by
    rintro ⟨packages, packages', o, hstep, hcode⟩
    rcases hparse : Datagram.parse settings.magicHeaderBytes r.buffer.bytes with _ | d
    · obtain ⟨packages₁, o₁, hunread, -, hcode₁, -⟩ :=
        step_of_unread packages (unread_of_parse host hsize hparse)
      rw [hunread] at hstep
      cases hstep
      exact absurd hcode₁ hcode
    · exact ⟨d, Datagram.parse_eq_some_iff.mp hparse⟩
  tfae_finish

theorem accepted_iff_emptyInfo :
    Accepts .littleEndian ⟨Header.zero.magic, 5⟩ ∅ (emptyInfoReceipt 1 2) := by
  have hsize : (emptyInfoReceipt 1 2).buffer.size < 2 ^ 32 := by decide
  have hiff := (accepted_iff .littleEndian ⟨Header.zero.magic, 5⟩ hsize).out 0 1
  exact hiff.mp ⟨.fragmentedMessageInfo 7 2 0, Datagram.parse_eq_some_iff.mp (by decide)⟩

end Socket

/-! ## What is returned -/

namespace FragmentedPackage

variable {p q : FragmentedPackage}

theorem Alike.symm (h : p.Alike q) : q.Alike p where
  info := h.info.symm
  slots i := (h.slots i).symm
  length hinfo := (h.length (by rwa [h.info])).symm

theorem Alike.trans {r : FragmentedPackage} (h : p.Alike q) (h' : q.Alike r) : p.Alike r where
  info := h.info.trans h'.info
  slots i := (h.slots i).trans (h'.slots i)
  length hinfo := (h.length hinfo).trans (h'.length (by rwa [← h.info]))

theorem Blank.of_alike (h : p.Blank) (hpq : p.Alike q) : q.Blank where
  info := by
    rw [← hpq.info]
    exact h.info
  slots i := by
    rw [← hpq.slots]
    exact h.slots i

end FragmentedPackage

namespace Entry

open FragmentedPackage

variable {entry entry' entry'' : Entry} {now : TimePoint} {a a' : Arrival}

theorem indistinct_of_blank (h : entry.package.fragments.length < 2 ^ 32)
    (h' : entry'.package.fragments.length < 2 ^ 32) (hblank : entry.package.Blank)
    (hblank' : entry'.package.Blank) : Indistinct entry entry' :=
  .blank ⟨h, h', Or.inl ⟨hblank, hblank'⟩⟩ hblank hblank'

theorem Indistinct.symm (h : Indistinct entry entry') : Indistinct entry' entry := by
  cases h with
  | blank h hleft hright => exact indistinct_of_blank h.right_lt h.left_lt hright hleft
  | alike h halike => exact .alike ⟨h.right_lt, h.left_lt, Or.inr halike.symm⟩ halike.symm

theorem Indistinct.trans (h : Indistinct entry entry') (h' : Indistinct entry' entry'') :
    Indistinct entry entry'' := by
  have hlt := h.similar.left_lt
  have hlt' := h'.similar.right_lt
  cases h with
  | blank h hleft hright =>
    refine indistinct_of_blank hlt hlt' hleft ?_
    cases h' with
    | blank _ _ hright' => exact hright'
    | alike _ halike' => exact hright.of_alike halike'
  | alike h halike =>
    cases h' with
    | blank _ hleft' hright' =>
      exact indistinct_of_blank hlt hlt' (hleft'.of_alike halike.symm) hright'
    | alike _ halike' =>
      have htrans := halike.trans halike'
      exact .alike ⟨hlt, hlt', Or.inr htrans⟩ htrans

/-- The entries cannot be told apart, wherever their bytes are. -/
def Alike (entry entry' : Entry) : Prop := Indistinct entry.forget entry'.forget

theorem Alike.symm (h : entry.Alike entry') : entry'.Alike entry := Indistinct.symm h

theorem prune_forget (entry : Entry) (t : TimePoint) :
    (entry.prune t).forget = entry.forget.prune t := by
  rw [prune, prune, forget, forget, Option.filter_map]
  rfl

theorem rejected_forget (entry : Entry) (a : Arrival) :
    (entry.rejected a).forget = entry.forget.rejected a.forget := by
  cases a with
  | info num len => rfl
  | fragment num view =>
    show (some _ : Entry) = some (entry.forget.package.withRoom num)
    rw [package_forget, withRoom_forget]

theorem Alike.prune (h : entry.Alike entry') (t : TimePoint) :
    (entry.prune t).Alike (entry'.prune t) := by
  unfold Alike
  rw [prune_forget, prune_forget]
  exact Indistinct.prune h t

theorem Alike.rejected (h : entry.Alike entry') (a : Arrival) :
    (entry.rejected a).Alike entry' := by
  unfold Alike
  rw [rejected_forget]
  exact (indistinct_rejected (Indistinct.similar h).left_lt _).trans h

end Entry

namespace Socket

variable {settings' : SocketSettings} {host' : ByteOrder} {packages packages' : Reassembly E}
    {r r' : Receipt E}

/-- The packages cannot be told apart, wherever their bytes are. -/
def Alike (packages packages' : Reassembly E) : Prop :=
  ∀ key : FragmentedPackageKey E, Entry.Alike packages[key]? packages'[key]?

theorem Alike.removeOldPackages (h : Alike packages packages') (t : TimePoint) :
    Alike (packages.removeOldPackages t) (packages'.removeOldPackages t) := by
  intro key
  rw [getElem?_removeOldPackages, getElem?_removeOldPackages]
  exact (h key).prune t

end Socket

end Ecaludp
