import Ecaludp.Socket.Format
import Ecaludp.Reassembly.Message

/-!
# Where messages come from

Nothing is known about the datagrams that arrive here: anybody may send anything. A socket keeps
under a key what datagrams from its endpoint said under its id, each of them not used so far
(`Sourced`), and uses up the datagrams of a message when it returns it. So every message is made of
datagrams that arrived, and no datagram serves twice (`delivered_from_distinct_datagrams`); in
particular nobody gets a socket to return more bytes than it received (`no_amplification`).
-/

namespace Ecaludp

open ByteOrder Reassembly EntryMap

/-- The id of a fragmented message. -/
def Datagram.id? : Datagram → Option Int32
  | fragmentedMessageInfo id _ _ => some id
  | fragment id _ _ => some id
  | nonFragmentedMessage _ => none

/-! ## One entry -/

/-- The package holds what datagrams said under this id. -/
structure Sourced (said : ℕ → Datagram → Prop) (id : Int32) (p : FragmentedPackage) : Prop where
  part : ∀ n bytes, p.part n = some bytes → ∃ i, said i (.fragment id (UInt32.ofNat n) bytes)
  info : p.info.fragmentInfoReceived = true → p.fragments.length = p.info.totalFragments.toNat ∧
    ∃ i, said i (.fragmentedMessageInfo id p.info.totalFragments p.info.totalSizeBytes)

/-- A datagram said what arrives, unless the payload is missing. -/
def Arrives (said : ℕ → Datagram → Prop) (id : Int32) : Arrival → Prop
  | .info num len => ∃ i, said i (.fragmentedMessageInfo id num len)
  | .fragment num view => ∀ v, view = some v → ∃ i, said i (.fragment id num v.bytes)

/-- An info and its fragments, with the indices of the datagrams that said so, make up the
message. -/
structure Composed (said : ℕ → Datagram → Prop) (id : Int32) (i : ℕ) (parts : List (ℕ × List UInt8))
    (bytes : List UInt8) : Prop where
  info : ∃ num len, said i (.fragmentedMessageInfo id num len) ∧ parts.length = num.toNat ∧
    bytes.length = len.toNat
  part : ∀ n (hn : n < parts.length), said parts[n].1 (.fragment id (UInt32.ofNat n) parts[n].2)
  bytes : (parts.map Prod.snd).flatten = bytes

section Entry

variable {said said' : ℕ → Datagram → Prop} {id : Int32} {p : FragmentedPackage}
    {entry entry' : Entry}
  {now : TimePoint} {a : Arrival} {num len : UInt32} {o : Outcome}

theorem Sourced.mono (h : Sourced said id p)
    (hsaid : ∀ i d, d.id? = some id → said i d → said' i d) :
    Sourced said' id p where
  part n bytes hpart := by
    obtain ⟨i, hi⟩ := h.part n bytes hpart
    exact ⟨i, hsaid i _ rfl hi⟩
  info hinfo := by
    obtain ⟨hlength, i, hi⟩ := h.info hinfo
    exact ⟨hlength, i, hsaid i _ rfl hi⟩

theorem sourced_default : Sourced said id {} where
  part n bytes h := by
    rw [FragmentedPackage.part_default] at h
    cases h
  info h := by cases h

theorem Sourced.withInfo (h : Sourced said id p) (now : TimePoint) {i : ℕ}
    (hi : said i (.fragmentedMessageInfo id num len)) :
    Sourced said id (p.withInfo now num len) where
  part n bytes hpart := by
    rw [FragmentedPackage.part_withInfo] at hpart
    split_ifs at hpart
    exact h.part n bytes hpart
  info _ := ⟨FragmentedPackage.length_withInfo, i, hi⟩

theorem Sourced.withRoom (h : Sourced said id p) (num : UInt32) :
    Sourced said id (p.withRoom num) where
  part n bytes hpart := by
    rw [FragmentedPackage.part_withRoom] at hpart
    exact h.part n bytes hpart
  info hinfo := by
    rw [FragmentedPackage.withRoom_of_info (p := p) hinfo]
    exact h.info hinfo

theorem Sourced.withFragment (h : Sourced said id p) (hnum : num.toNat < p.fragments.length)
    {view : OwningBuffer} {i : ℕ} (hi : said i (.fragment id num view.bytes)) (now : TimePoint) :
    Sourced said id (p.withFragment now num view) where
  part n bytes hpart := by
    rw [FragmentedPackage.part_withFragment hnum] at hpart
    split_ifs at hpart with hn
    · cases hpart
      subst hn
      rw [UInt32.ofNat_toNat]
      exact ⟨i, hi⟩
    · exact h.part n bytes hpart
  info hinfo := by
    rw [FragmentedPackage.length_withFragment]
    exact h.info hinfo

theorem Sourced.rejected (h : Sourced said id entry.package) (a : Arrival) :
    Sourced said id (entry.rejected a).package := by
  cases a with
  | info num len => exact h
  | fragment num view => exact h.withRoom num

theorem Sourced.prune (h : Sourced said id entry.package) (t : TimePoint) :
    Sourced said id (entry.prune t).package := by
  rcases Entry.package_prune t entry with hp | hp <;> rw [hp]
  · exact h
  · exact sourced_default

theorem Sourced.composed (h : Sourced said id p) (hinfo : p.info.fragmentInfoReceived = true)
    (hfilled : SlotList.filled p.fragments = p.fragments.length)
    (hsize : (p.fragments.reduceOption.map OwningBuffer.size).sum = p.info.totalSizeBytes.toNat) :
    ∃ i parts, Composed said id i parts (p.fragments.reduceOption.flatMap OwningBuffer.bytes) := by
  obtain ⟨hlength, i, hi⟩ := h.info hinfo
  have hslots := SlotList.eq_map_some_of_filled hfilled
  set chunks := p.fragments.reduceOption.map OwningBuffer.bytes with hchunks
  have hcount : chunks.length = p.info.totalFragments.toNat := by
    rw [← hlength, hchunks, List.length_map]
    conv_rhs => rw [hslots, List.length_map]
  have hpart : ∀ n (hn : n < chunks.length), ∃ j,
      said j (.fragment id (UInt32.ofNat n) chunks[n]) := by
    intro n hn
    apply h.part n
    have hslot := SlotList.getElem?_reduceOption hfilled n
    rw [List.getElem?_eq_getElem (by rwa [hchunks, List.length_map] at hn)] at hslot
    rw [FragmentedPackage.part, ← hslot]
    simp only [hchunks, List.getElem_map, Option.map_some]
  choose j hj using hpart
  refine ⟨i, List.ofFn fun n : Fin chunks.length => (j n n.isLt, chunks[n]), ⟨_, _, hi, ?_, ?_⟩,
    fun n hn => ?_, ?_⟩
  · rw [List.length_ofFn, hcount]
  · rw [List.length_flatMap, ← hsize]
    simp
  · rw [List.getElem_ofFn]
    exact hj n _
  · rw [List.map_ofFn, List.flatMap_def]
    exact congrArg List.flatten List.ofFn_getElem

theorem Sourced.finish (h : Sourced said id p) (hfinish : Entry.finish p = .ok (entry', o)) :
    Sourced said id entry'.package ∧ ∀ bytes, o.message = some bytes →
      entry' = none ∧ ∃ i parts, Composed said id i parts bytes := by
  unfold Entry.finish at hfinish
  split_ifs at hfinish with hcount hfilled hsize <;> cases hfinish
  · refine ⟨sourced_default, fun bytes hbytes => ⟨rfl, ?_⟩⟩
    cases hbytes
    exact h.composed hcount.1 hfilled hsize
  · exact ⟨sourced_default, fun bytes hbytes => by cases hbytes⟩
  · exact ⟨h, fun bytes hbytes => by cases hbytes⟩

/-- The entry holds what was said, and what is returned was. -/
theorem step_sourced (h : Sourced said id entry.package) (ha : Arrives said id a)
    (hstep : Entry.step now entry a = .ok (entry', o)) :
    Sourced said id entry'.package ∧ ∀ bytes, o.message = some bytes →
      entry' = none ∧ ∃ i parts, Composed said id i parts bytes := by
  rcases hchecked : Entry.checked now entry a with _ | q
  · obtain ⟨code, -, hrejected⟩ := Entry.step_of_not_checked hchecked
    rw [hrejected] at hstep
    cases hstep
    exact ⟨h.rejected a, fun bytes hbytes => by cases hbytes⟩
  · rw [Entry.step_of_checked hchecked] at hstep
    refine Sourced.finish ?_ hstep
    cases a with
    | info num len =>
      obtain ⟨i, hi⟩ := ha
      simp only [Entry.checked] at hchecked
      split_ifs at hchecked
      cases hchecked
      exact h.withInfo now hi
    | fragment num view =>
      obtain ⟨hlt, -, v, hv, rfl⟩ := Entry.stored_eq_some hchecked
      obtain ⟨i, hi⟩ := ha v hv
      exact (h.withRoom num).withFragment hlt hi now

end Entry

/-! ## Runs -/

section Runs

variable {E : Type} {magic : Magic} {received : List (Receipt E)} {e e' : E} {i : ℕ}
    {d d' : Datagram}

/-- Datagram `i` came from this endpoint and says `d`. -/
def Said (magic : Magic) (received : List (Receipt E)) (e : E) (i : ℕ) (d : Datagram) : Prop :=
  ∃ r, received[i]? = some r ∧ r.senderEndpoint = e ∧ d.Encoded magic r.buffer.bytes

theorem Said.lt (h : Said magic received e i d) : i < received.length := by
  obtain ⟨r, hr, -⟩ := h
  exact (List.getElem?_eq_some_iff.mp hr).1

/-- A datagram comes from one endpoint and says one thing. -/
theorem Said.unique (h : Said magic received e i d) (h' : Said magic received e' i d') :
    e = e' ∧ d = d' := by
  obtain ⟨r, hr, rfl, hd⟩ := h
  obtain ⟨r', hr', rfl, hd'⟩ := h'
  rw [hr] at hr'
  cases hr'
  rw [← Datagram.parse_eq_some_iff] at hd hd'
  rw [hd] at hd'
  exact ⟨rfl, Option.some.inj hd'⟩

theorem Said.concat (h : Said magic received e i d) (r : Receipt E) :
    Said magic (received ++ [r]) e i d := by
  obtain ⟨r', hr', hsender, hd⟩ := h
  exact ⟨r', List.getElem?_append_left (List.getElem?_eq_some_iff.mp hr').1 ▸ hr', hsender, hd⟩

theorem said_concat (received : List (Receipt E)) {r : Receipt E}
    (h : d.Encoded magic r.buffer.bytes) :
    Said magic (received ++ [r]) r.senderEndpoint received.length d :=
  ⟨r, List.getElem?_concat_length, rfl, h⟩

/-- The message is made of the datagrams with these indices: one that holds it whole, or an info and
as many fragments as it announces, with the numbers from 0 on. -/
inductive MadeOf (magic : Magic) (received : List (Receipt E)) (e : E) : List ℕ → List UInt8 → Prop
  | whole {i : ℕ} {bytes : List UInt8} (h : Said magic received e i (.nonFragmentedMessage bytes)) :
      MadeOf magic received e [i] bytes
  | parts {id : Int32} {i : ℕ} {parts : List (ℕ × List UInt8)} {bytes : List UInt8}
      (h : Composed (Said magic received e) id i parts bytes) :
      MadeOf magic received e (i :: parts.map Prod.fst) bytes

/-- What a call returned is made of the datagrams with these indices; nothing is made of none. -/
def Accounts (magic : Magic) (received : List (Receipt E)) (e : E) (used : List ℕ) :
    Option (List UInt8) → Prop
  | none => used = []
  | some bytes => MadeOf magic received e used bytes

theorem Composed.nodup {id : Int32} {parts : List (ℕ × List UInt8)} {bytes : List UInt8}
    (h : Composed (Said magic received e) id i parts bytes) : (i :: parts.map Prod.fst).Nodup := by
  obtain ⟨num, len, hi, hnum, -⟩ := h.info
  rw [List.nodup_cons]
  constructor
  · intro hmem
    obtain ⟨n, hn, hpart⟩ := List.getElem_of_mem hmem
    rw [List.length_map] at hn
    have hsaid := h.part n hn
    rw [List.getElem_map] at hpart
    rw [hpart] at hsaid
    cases (hi.unique hsaid).2
  · rw [List.nodup_iff_injective_getElem]
    rintro ⟨n, hn⟩ ⟨m, hm⟩ heq
    simp only [List.getElem_map] at heq
    rw [List.length_map, hnum] at hn hm
    have hlt := num.toNat_lt
    have hsaid := h.part n (hnum ▸ hn)
    rw [heq] at hsaid
    have hnumber := (hsaid.unique (h.part m (hnum ▸ hm))).2
    injection hnumber with _ hnumber _
    have htoNat := congrArg UInt32.toNat hnumber
    rw [UInt32.toNat_ofNat', UInt32.toNat_ofNat', Nat.mod_eq_of_lt (by omega),
      Nat.mod_eq_of_lt (by omega)] at htoNat
    exact Fin.ext htoNat

theorem Composed.mono {said said' : ℕ → Datagram → Prop} {id : Int32}
    {parts : List (ℕ × List UInt8)}
    {bytes : List UInt8} (h : Composed said id i parts bytes)
    (hsaid : ∀ i d, said i d → said' i d) :
    Composed said' id i parts bytes where
  info := by
    obtain ⟨num, len, hi, hcount⟩ := h.info
    exact ⟨num, len, hsaid _ _ hi, hcount⟩
  part n hn := hsaid _ _ (h.part n hn)
  bytes := h.bytes

theorem Composed.said {said : ℕ → Datagram → Prop} {id : Int32} {parts : List (ℕ × List UInt8)}
    {bytes : List UInt8} (h : Composed said id i parts bytes) {j : ℕ}
    (hj : j ∈ i :: parts.map Prod.fst) :
    ∃ d, d.id? = some id ∧ said j d := by
  rcases List.mem_cons.mp hj with rfl | hj
  · obtain ⟨num, len, hi, -⟩ := h.info
    exact ⟨_, rfl, hi⟩
  · obtain ⟨n, hn, rfl⟩ := List.getElem_of_mem hj
    rw [List.getElem_map]
    exact ⟨_, rfl, h.part n (by rwa [List.length_map] at hn)⟩

/-- Datagram `i` came from this endpoint, says `d`, and no message was made of it. -/
def Free (magic : Magic) (received : List (Receipt E)) (used : List ℕ) (e : E) (i : ℕ)
    (d : Datagram) : Prop :=
  i ∉ used ∧ Said magic received e i d

theorem Free.next {used src : List ℕ} (h : Free magic received used e i d) (hsrc : i ∉ src)
    (r : Receipt E) :
    Free magic (received ++ [r]) (used ++ src) e i d := by
  refine ⟨fun hmem => ?_, h.2.concat r⟩
  rcases List.mem_append.mp hmem with hmem | hmem
  · exact h.1 hmem
  · exact hsrc hmem

variable [LinearOrder E] {host : ByteOrder} {settings : SocketSettings}
    {packages packages' : Reassembly E}
  {used : List ℕ} {r : Receipt E} {o : Outcome}

/-- Everything the socket keeps was said in datagrams that are free. -/
def WellSourced (magic : Magic) (received : List (Receipt E)) (used : List ℕ)
    (packages : Reassembly E) : Prop :=
  ∀ key : FragmentedPackageKey E,
    Sourced (Free magic received used key.endpoint) key.id (Entry.package packages[key]?)

theorem wellSourced_empty : WellSourced magic [] [] (∅ : Reassembly E) := by
  intro key
  rw [Std.ExtTreeMap.getElem?_empty]
  exact sourced_default

theorem WellSourced.arrival (h : WellSourced settings.magicHeaderBytes received used packages)
    {id : Int32} {a : Arrival} (harr : Socket.arrivalOf host settings r.buffer = some (id, a))
    (ha : Arrives (Free settings.magicHeaderBytes (received ++ [r]) used r.senderEndpoint) id a)
    (hstep : Socket.step host settings packages r = .ok (packages', o)) :
    ∃ src, Accounts settings.magicHeaderBytes (received ++ [r]) r.senderEndpoint src
      o.message ∧ src.Nodup ∧ (∀ i ∈ src, i ∉ used ∧ i < (received ++ [r]).length) ∧
      WellSourced settings.magicHeaderBytes (received ++ [r]) (used ++ src) packages' := by
  have hpruned (key : FragmentedPackageKey E) :
      Sourced (Free settings.magicHeaderBytes (received ++ [r]) used key.endpoint) key.id
        (Entry.package (Entry.prune (Socket.limit settings r) packages[key]?)) := by
    refine ((h key).prune _).mono fun i d _ hi => ?_
    have hnext := hi.next List.not_mem_nil r
    rwa [List.append_nil] at hnext
  rw [Socket.step_of_arrivalOf host packages harr] at hstep
  obtain ⟨⟨entry, o'⟩, hentry, heq⟩ := Machine.map_eq_ok.mp hstep
  cases heq
  obtain ⟨hsourced, hmessage⟩ := step_sourced (hpruned _) ha hentry
  rcases ho : o'.message with _ | bytes
  · refine ⟨[], rfl, .nil, by simp, fun key => ?_⟩
    rw [List.append_nil, getElem?_put]
    split_ifs with hkey
    · subst hkey
      exact hsourced
    · rw [getElem?_removeOldPackages]
      exact hpruned key
  · obtain ⟨rfl, i, parts, hcomposed⟩ := hmessage bytes ho
    have hmade : Composed (Said settings.magicHeaderBytes (received ++ [r]) r.senderEndpoint) id
        i parts bytes :=
      hcomposed.mono fun _ _ hi => hi.2
    refine ⟨_, .parts hmade, hmade.nodup, fun j hj => ?_, fun key => ?_⟩
    · obtain ⟨d, -, hd⟩ := hcomposed.said hj
      exact ⟨hd.1, hd.2.lt⟩
    · rw [getElem?_put]
      split_ifs with hkey
      · exact sourced_default
      · rw [getElem?_removeOldPackages]
        refine ((h key).prune _).mono fun j d hd hj => hj.next (fun hmem => hkey ?_) r
        -- a datagram of another key is not one of the message
        obtain ⟨d', hd', hsaid⟩ := hmade.said hmem
        obtain ⟨hsender, rfl⟩ := hsaid.unique (hj.2.concat r)
        rw [hd] at hd'
        obtain ⟨endpoint, id'⟩ := key
        cases hd'
        cases hsender
        rfl

theorem WellSourced.pruned (h : WellSourced magic received used packages)
    (t : TimePoint) (r : Receipt E)
    {src : List ℕ} (hsrc : ∀ i ∈ src, received.length ≤ i) {packages' : Reassembly E}
    (hkeys : ∀ key : FragmentedPackageKey E, packages'[key]? = Entry.prune t packages[key]? ∨
      ∃ a, packages'[key]? = (Entry.prune t packages[key]?).rejected a) :
    WellSourced magic (received ++ [r]) (used ++ src) packages' := by
  intro key
  have hpruned := ((h key).prune t).mono fun i d _ hi =>
    hi.next (fun hmem => absurd hi.2.lt (Nat.not_lt.mpr (hsrc i hmem))) r
  rcases hkeys key with heq | ⟨a, heq⟩ <;> rw [heq]
  · exact hpruned
  · exact hpruned.rejected a

/-- What is returned is made of datagrams that were free, and what is kept still is. -/
theorem WellSourced.step (h : WellSourced settings.magicHeaderBytes received used packages)
    (hused : ∀ i ∈ used, i < received.length) (hsize : r.buffer.size < 2 ^ 32)
    (hstep : Socket.step host settings packages r = .ok (packages', o)) :
    ∃ src, Accounts settings.magicHeaderBytes (received ++ [r]) r.senderEndpoint src
      o.message ∧ src.Nodup ∧ (∀ i ∈ src, i ∉ used ∧ i < (received ++ [r]).length) ∧
      WellSourced settings.magicHeaderBytes (received ++ [r]) (used ++ src) packages' := by
  have hfresh : received.length ∉ used := fun hmem => Nat.lt_irrefl _ (hused _ hmem)
  have hreads := reads_parse host settings hsize
  rcases hparse : Datagram.parse settings.magicHeaderBytes r.buffer.bytes with _ | d <;>
    rw [hparse] at hreads
  · obtain ⟨packages₁, o₁, hunread, hmessage, -, hkeys⟩ := Socket.step_of_unread packages hreads
    rw [hunread] at hstep
    cases hstep
    rw [hmessage]
    exact ⟨[], rfl, .nil, by simp, h.pruned _ r (by simp) hkeys⟩
  · have hsaid := said_concat received (Datagram.parse_eq_some_iff.mp hparse)
    cases d with
    | fragmentedMessageInfo id num len => exact h.arrival hreads ⟨_, hfresh, hsaid⟩ hstep
    | fragment id num payload =>
      obtain ⟨view, harr, hview⟩ := hreads
      refine h.arrival harr (fun v hv => ?_) hstep
      cases hv
      rw [hview]
      exact ⟨_, hfresh, hsaid⟩
    | nonFragmentedMessage payload =>
      rw [Socket.step_of_arrivalOf_none host packages hreads.1, hreads.2] at hstep
      cases hstep
      refine ⟨[received.length], .whole hsaid, List.nodup_singleton _, ?_,
        h.pruned (Socket.limit settings r) r (by simp) fun key => Or.inl ?_⟩
      · simp only [List.mem_singleton, forall_eq]
        exact ⟨hfresh, by simp⟩
      · rw [getElem?_removeOldPackages]

/-- From any state on, every output is accounted for by datagrams of its own. -/
theorem WellSourced.run (host : ByteOrder) {rs : List (Receipt E)}
    (hsize : ∀ r ∈ rs, r.buffer.size < 2 ^ 32)
    (h : WellSourced settings.magicHeaderBytes received used packages) (hnodup : used.Nodup)
    (hused : ∀ i ∈ used, i < received.length) :
    ∃ sources : List (List ℕ),
      sources.length = (Machine.run (Socket.step host settings) packages rs).1.length ∧
      (used ++ sources.flatten).Nodup ∧
      ∀ k r o src, rs[k]? = some r →
        (Machine.run (Socket.step host settings) packages rs).1[k]? = some o →
        sources[k]? = some src → Accounts settings.magicHeaderBytes (received ++ rs.take (k + 1))
          r.senderEndpoint src o.message := by
  induction rs generalizing received used packages with
  | nil => exact ⟨[], rfl, by simpa using hnodup, fun k r o src hr => by simp at hr⟩
  | cons r rs ih =>
    rcases hstep : Socket.step host settings packages r with f | ⟨packages', o⟩
    · rw [Machine.run_cons_error hstep]
      exact ⟨[], rfl, by simpa using hnodup, fun k r o src _ ho => by simp at ho⟩
    · obtain ⟨src, haccounts, hsrc, hfree, hnext⟩ := h.step hused (hsize r List.mem_cons_self) hstep
      have hnodup' : (used ++ src).Nodup :=
        List.nodup_append'.mpr ⟨hnodup, hsrc, fun i hi hi' => (hfree i hi').1 hi⟩
      obtain ⟨sources, hlength, hsources, haccount⟩ :=
        ih (fun r' hr' => hsize r' (List.mem_cons_of_mem _ hr')) hnext hnodup' fun i hi => by
          rcases List.mem_append.mp hi with hi | hi
          · exact Nat.lt_trans (hused i hi) (by simp)
          · exact (hfree i hi).2
      rw [Machine.run_cons_ok hstep]
      refine ⟨src :: sources, congrArg (· + 1) hlength, ?_, fun k r' o' src' hr' ho' hsrc' => ?_⟩
      · rwa [List.flatten_cons, ← List.append_assoc]
      · cases k with
        | zero =>
          cases hr'
          cases ho'
          cases hsrc'
          exact haccounts
        | succ k =>
          have hrest := haccount k r' o' src' hr' ho' hsrc'
          rwa [List.append_assoc] at hrest

/-- Where messages come from. Whatever datagrams arrive, and whoever sent them: a message that is
returned for one is made of datagrams that have arrived by then, all from its sender, and no
datagram is used for two messages. -/
theorem delivered_from_distinct_datagrams (host : ByteOrder) (settings : SocketSettings)
    {rs : List (Receipt E)} (hsize : ∀ r ∈ rs, r.buffer.size < 2 ^ 32) :
    ∃ sources : List (List ℕ),
      sources.length = (Machine.run (Socket.step host settings) ∅ rs).1.length ∧
      sources.flatten.Nodup ∧
      ∀ k r o src, rs[k]? = some r → (Machine.run (Socket.step host settings) ∅ rs).1[k]? = some o →
        sources[k]? = some src →
        Accounts settings.magicHeaderBytes (rs.take (k + 1)) r.senderEndpoint src o.message :=
  wellSourced_empty.run host hsize .nil (by simp)

/-- A message of two bytes in one fragment, the info first. -/
def oneFragment : List (Receipt ℕ) :=
  [⟨1, ⟨1, .empty, fun _ => 0⟩,
    .ofBytes (wireHeader Header.zero.magic .fragmentedMessageInfo 7 1 2), 0, ⟨.ok, ""⟩⟩,
    ⟨2, ⟨2, .empty, fun _ => 0⟩,
      .ofBytes (wireHeader Header.zero.magic .fragment 7 0 2 ++ [8, 9]), 0, ⟨.ok, ""⟩⟩]

theorem oneFragment_size : ∀ r ∈ oneFragment, r.buffer.size < 2 ^ 32 := by decide

theorem delivered_from_distinct_datagrams_oneFragment :
    ∃ sources : List (List ℕ), sources.length = 2 ∧ sources.flatten.Nodup ∧
      ∀ src, sources[1]? = some src → MadeOf Header.zero.magic oneFragment 0 src [8, 9] := by
  obtain ⟨sources, hlength, hnodup, haccounts⟩ :=
    delivered_from_distinct_datagrams .littleEndian ⟨Header.zero.magic, 5⟩ oneFragment_size
  have houts : (Machine.run (Socket.step .littleEndian ⟨Header.zero.magic, 5⟩) ∅ oneFragment).1 =
      [⟨none, .ok⟩, ⟨some [8, 9], .ok⟩] := by
    decide +kernel
  rw [houts] at hlength haccounts
  exact ⟨sources, hlength, hnodup, fun src hsrc => haccounts 1 _ _ src rfl rfl hsrc⟩

end Runs

/-! ## Sizes -/

section Sizes

variable {E : Type} {magic : Magic} {received : List (Receipt E)} {e : E} {i : ℕ} {d : Datagram}

/-- The payload of a datagram. -/
def Datagram.payload : Datagram → List UInt8
  | fragmentedMessageInfo _ _ _ => []
  | fragment _ _ payload => payload
  | nonFragmentedMessage payload => payload

theorem Datagram.Encoded.length_le {bytes : List UInt8} (h : d.Encoded magic bytes) :
    d.payload.length + sizeofHeader ≤ bytes.length := by
  cases h <;>
    simp only [Datagram.payload, headerBytes, sizeofHeader, List.length_append, List.length_cons,
      List.length_nil, Vector.length_toList, length_wordBytes] <;>
    omega

/-- The size of datagram `i`. -/
def sizeAt (received : List (Receipt E)) (i : ℕ) : ℕ :=
  (received[i]?.map fun r => r.buffer.size).getD 0

theorem Said.payload_le (h : Said magic received e i d) :
    d.payload.length + sizeofHeader ≤ sizeAt received i := by
  obtain ⟨r, hr, -, hd⟩ := h
  have hle := hd.length_le
  rw [RawMemory.length_bytes] at hle
  rw [sizeAt, hr]
  exact hle

/-- A message is not larger than the datagrams that it is made of, less a header. -/
theorem MadeOf.length_le {used : List ℕ} {bytes : List UInt8}
    (h : MadeOf magic received e used bytes) :
    bytes.length + sizeofHeader ≤ (used.map (sizeAt received)).sum := by
  cases h with
  | whole h =>
    rw [List.map_singleton, List.sum_singleton]
    exact h.payload_le
  | @parts id i parts bytes h =>
    obtain ⟨num, len, hi, -⟩ := h.info
    have hinfo := hi.payload_le
    have hparts : ((parts.map Prod.snd).map List.length).sum ≤
        ((parts.map Prod.fst).map (sizeAt received)).sum := by
      rw [List.map_map, List.map_map]
      refine List.sum_le_sum fun part hpart => ?_
      obtain ⟨n, hn, rfl⟩ := List.getElem_of_mem hpart
      exact Nat.le_trans (Nat.le_add_right _ _) (h.part n hn).payload_le
    rw [← h.bytes, List.length_flatten, List.map_cons, List.sum_cons]
    simp only [Datagram.payload, List.length_nil] at hinfo
    omega

theorem Accounts.length_le {used : List ℕ} {message : Option (List UInt8)}
    (h : Accounts magic received e used message) :
    (message.map fun bytes => bytes.length + sizeofHeader).getD 0 ≤
      (used.map (sizeAt received)).sum := by
  cases message with
  | none => exact Nat.zero_le _
  | some bytes => exact MadeOf.length_le h

theorem map_sizeAt (received : List (Receipt E)) :
    (List.range received.length).map (sizeAt received) = received.map fun r => r.buffer.size := by
  apply List.ext_getElem
  · rw [List.length_map, List.length_map, List.length_range]
  · intro i hi hi'
    rw [List.getElem_map, List.getElem_map, List.getElem_range, sizeAt,
      List.getElem?_eq_getElem (by rwa [List.length_map] at hi')]
    rfl

theorem sum_sizeAt_le {used : List ℕ} (h : used.Nodup) :
    (used.map (sizeAt received)).sum ≤ (received.map fun r => r.buffer.size).sum := by
  rw [← map_sizeAt, ← List.sum_toFinset _ h, ← List.sum_toFinset _ List.nodup_range,
    List.toFinset_range]
  apply Finset.sum_le_sum_of_ne_zero
  intro i _ hi
  rw [Finset.mem_range]
  by_contra hle
  exact hi (by rw [sizeAt, List.getElem?_eq_none (Nat.not_lt.mp hle)]; rfl)

theorem sizeAt_take_le (n i : ℕ) : sizeAt (received.take n) i ≤ sizeAt received i := by
  unfold sizeAt
  rw [List.getElem?_take]
  split_ifs
  · exact Nat.le_refl _
  · exact Nat.zero_le _

/-- The messages among outcomes, with the sizes of a header and a payload. -/
theorem sum_messages (os : List Outcome) :
    ((os.filterMap Outcome.message).map fun bytes => bytes.length + sizeofHeader).sum =
      (os.map fun o => (o.message.map fun bytes => bytes.length + sizeofHeader).getD 0).sum := by
  induction os with
  | nil => rfl
  | cons o os ih =>
    rw [List.map_cons, List.sum_cons, ← ih]
    rcases h : o.message with _ | bytes
    · rw [List.filterMap_cons_none h]
      exact (Nat.zero_add _).symm
    · rw [List.filterMap_cons_some h]
      rfl

/-- No amplification: whatever datagrams arrive, the messages that a socket returns are together not
larger than the datagrams, even with a header for each message. -/
theorem no_amplification [LinearOrder E] (host : ByteOrder) (settings : SocketSettings)
    {rs : List (Receipt E)} (hsize : ∀ r ∈ rs, r.buffer.size < 2 ^ 32) :
    (((Machine.run (Socket.step host settings) ∅ rs).1.filterMap Outcome.message).map
        fun bytes => bytes.length + sizeofHeader).sum ≤
      (rs.map fun r => r.buffer.size).sum := by
  have hempty : WellSourced settings.magicHeaderBytes [] [] (∅ : Reassembly E) := wellSourced_empty
  obtain ⟨sources, hlength, hnodup, haccounts⟩ := hempty.run host hsize .nil (by simp)
  have hle : ((Machine.run (Socket.step host settings) ∅ rs).1.map fun o =>
      (o.message.map fun bytes => bytes.length + sizeofHeader).getD 0).sum ≤
        (sources.map fun src => (src.map (sizeAt rs)).sum).sum := by
    apply List.Forall₂.sum_le_sum
    rw [List.forall₂_iff_get]
    refine ⟨by rw [List.length_map, List.length_map, hlength], fun k hk hk' => ?_⟩
    rw [List.length_map] at hk hk'
    have hr := lt_of_lt_of_le hk (Machine.length_run_le (Socket.step host settings) ∅ rs)
    have haccount := haccounts k _ _ _ (List.getElem?_eq_getElem hr) (List.getElem?_eq_getElem hk)
      (List.getElem?_eq_getElem hk')
    simp only [List.get_eq_getElem, List.getElem_map]
    exact Nat.le_trans haccount.length_le (List.sum_le_sum fun i _ => sizeAt_take_le _ i)
  calc (((Machine.run (Socket.step host settings) ∅ rs).1.filterMap Outcome.message).map
        fun bytes => bytes.length + sizeofHeader).sum
    _ ≤ (sources.map fun src => (src.map (sizeAt rs)).sum).sum := (sum_messages _).trans_le hle
    _ = (sources.flatten.map (sizeAt rs)).sum := by
      rw [List.map_flatten, List.sum_flatten, List.map_map]
      rfl
    _ ≤ (rs.map fun r => r.buffer.size).sum := sum_sizeAt_le hnodup

theorem no_amplification_oneFragment :
    (((Machine.run (Socket.step .littleEndian ⟨Header.zero.magic, 5⟩) ∅ oneFragment).1.filterMap
        Outcome.message).map fun bytes => bytes.length + sizeofHeader).sum ≤ 50 :=
  no_amplification .littleEndian ⟨Header.zero.magic, 5⟩ oneFragment_size

end Sizes

end Ecaludp
