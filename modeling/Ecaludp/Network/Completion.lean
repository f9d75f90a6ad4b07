import Ecaludp.Network.Delivery

/-!
# When everything arrives

A message whose datagrams all arrive once is returned exactly once if they follow each other within
the maximum age, and not at all otherwise (`delivered_once`). Without strangers the receiver never
faults, and when all messages arrive so, it returns all of them and keeps nothing (`all_delivered`).
-/

namespace Ecaludp

open ByteOrder Reassembly

namespace Network

variable {E P : Type} {d : Deployment E P} {i : ℕ} {id : Int32}
  {m : Message} {message : SentMessage E}

/-- The receipts of the datagrams of message `i`. -/
def arrivals (i : ℕ) (events : List (Event E)) : List (Receipt E) :=
  (events.filter (Event.copyOf i)).filterMap Event.receipt

/-- The receipts follow each other within the maximum age. -/
def InTime (settings : SocketSettings) (receipts : List (Receipt E)) : Prop :=
  receipts.IsChain fun earlier later => later.pruneNow - earlier.env.now ≤ settings.maxReassemblyAge

/-- Every datagram of the message arrives once. -/
def ArrivesOnce (i : ℕ) (message : SentMessage E) (events : List (Event E)) : Prop :=
  ∀ j < message.datagrams.length, events.countP (Event.copy i j) = 1

/-- The clock of the receiver does not run backwards. -/
def Clocked (events : List (Event E)) : Prop :=
  ((events.filterMap Event.receipt).map Receipt.pruneNow).Pairwise (· ≤ ·)

instance (settings : SocketSettings) (receipts : List (Receipt E)) :
    Decidable (InTime settings receipts) :=
  inferInstanceAs (Decidable (List.IsChain _ _))

instance (i : ℕ) (message : SentMessage E) (events : List (Event E)) :
    Decidable (ArrivesOnce i message events) :=
  inferInstanceAs (Decidable (∀ j < _, _ = 1))

instance (events : List (Event E)) : Decidable (Clocked events) :=
  inferInstanceAs (Decidable (List.Pairwise _ _))

/-! ## The offers of a run -/

/-- Copies of message `i` are copies of its datagrams. -/
def Copies (i n : ℕ) (e : Event E) : Prop :=
  e.copyOf i = true → ∃ j r, j < n ∧ e = .receive (some (i, j)) r

section Offers

variable {events : List (Event E)}

theorem offered_arrivals (hcopies : ∀ e ∈ events, Copies i m.partList.length e) :
    (Collect.offered (events.filterMap (visitOf d i m))).map (fun x => (x.1, x.2.1)) =
        (arrivals i events).map (fun r => (Socket.limit d.settings r, r.env.now)) ∧
      ∀ x ∈ Collect.offered (events.filterMap (visitOf d i m)), x.2.2 ∈ m.partList := by
  induction events with
  | nil => exact ⟨rfl, fun x hx => by cases hx⟩
  | cons e events ih =>
    obtain ⟨htimes, hmem⟩ := ih fun e he => hcopies e (List.mem_cons_of_mem _ he)
    unfold arrivals at htimes ⊢
    cases hcopy : e.copyOf i with
    | true =>
      obtain ⟨j, r, hj, rfl⟩ := hcopies e List.mem_cons_self hcopy
      have hvisit : visitOf d i m (.receive (some (i, j)) r) =
          some (Socket.limit d.settings r, some (r.env.now, m.partList[j])) := by
        simp [visitOf, List.getElem?_eq_getElem hj]
      rw [List.filterMap_cons_some hvisit, Collect.offered_cons_some, List.filter_cons_of_pos hcopy,
        List.filterMap_cons_some (show Event.receipt (.receive _ r) = some r from rfl),
        List.map_cons, List.map_cons, htimes]
      refine ⟨rfl, fun x hx => ?_⟩
      rcases List.mem_cons.mp hx with rfl | hx
      · exact List.getElem_mem hj
      · exact hmem x hx
    | false =>
      rw [List.filter_cons_of_neg (by simp [hcopy])]
      cases e with
      | send endpoint buffers => exact ⟨htimes, hmem⟩
      | receive origin r =>
        have hnot : ∀ j, origin ≠ some (i, j) := by
          rintro j rfl
          simp [Event.copyOf] at hcopy
        rw [List.filterMap_cons_some (visitOf_of_not_copy hnot).1, Collect.offered_cons_none]
        exact ⟨htimes, hmem⟩

theorem visits_limits (events : List (Event E)) :
    (events.filterMap (visitOf d i m)).map Prod.fst =
      (events.filterMap Event.receipt).map (Socket.limit d.settings) := by
  rw [List.map_filterMap, List.map_filterMap]
  refine List.filterMap_congr fun e _ => ?_
  cases e with
  | send endpoint buffers => rfl
  | receive origin r =>
    rcases origin with _ | ⟨i', j⟩ <;> rfl

theorem once_of_arrivesOnce (hcopies : ∀ e ∈ events, Copies i m.partList.length e)
    (honce : ∀ j < m.partList.length, events.countP (Event.copy i j) = 1) (stamp : TimePoint) :
    Collect.Once m.parts ⟨∅, stamp⟩ (events.filterMap (visitOf d i m)) ∧
      (Collect.offered (events.filterMap (visitOf d i m))).length = m.partList.length := by
  have hcount (part : Part) (hpart : part ∈ m.partList) :
      ((Collect.offered (events.filterMap (visitOf d i m))).map fun x => x.2.2).count part = 1 := by
    obtain ⟨j, hj, rfl⟩ := List.mem_iff_getElem.mp hpart
    rw [count_offered (List.getElem?_eq_getElem hj), honce j hj]
  have hperm : ((Collect.offered (events.filterMap (visitOf d i m))).map fun x => x.2.2).Perm
      m.partList := by
    rw [List.perm_iff_count]
    intro part
    by_cases hpart : part ∈ m.partList
    · rw [hcount part hpart, List.count_eq_one_of_mem m.nodup_partList hpart]
    · rw [List.count_eq_zero_of_not_mem hpart, List.count_eq_zero_of_not_mem]
      intro hmem
      obtain ⟨x, hx, rfl⟩ := List.mem_map.mp hmem
      exact hpart ((offered_arrivals hcopies).2 x hx)
  refine ⟨?_, by rw [← hperm.length_eq, List.length_map]⟩
  rw [← Message.toFinset_of_perm hperm]
  exact Collect.once_empty (Message.nodup_of_perm hperm)

end Offers

/-! ## One message -/

section Once

variable [LinearOrder E] [DecidableEq P] {w w' : Network E P} {events : List (Event E)}
  {rng : P → Xorshf96}

theorem copies_of_run (h : w.WellFormed d)
    (hpossible : Machine.Along (step d) (fun w e => Event.Possible d w e) w events)
    (hrun : (Machine.run (step d) w events).2 = .ok w') (hsent : w'.sent[i]? = some message) :
    ∀ e ∈ events, Copies i message.datagrams.length e := by
  induction events generalizing w with
  | nil => exact fun e he => by cases he
  | cons e events ih =>
    have hthis := sent_of_run h hpossible hrun hsent
    rcases he : step d w e with f | ⟨w₁, o⟩
    · rw [Machine.run_cons_error he] at hrun
      cases hrun
    · rw [Machine.run_cons_ok he] at hrun
      have hrest := ih (h.step hpossible.1 he).1 (hpossible.2 w₁ o he) hrun
      intro e' he'
      rcases List.mem_cons.mp he' with rfl | he'
      · intro hcopy
        cases e' with
        | send endpoint buffers => cases hcopy
        | receive origin r =>
          rcases origin with _ | ⟨i', j⟩
          · cases hcopy
          · obtain rfl : i' = i := by simpa [Event.copyOf] using hcopy
            obtain ⟨other, hi, hj, -⟩ := hpossible.1
            obtain rfl := hthis other hi
            exact ⟨j, r, (List.getElem?_eq_some_iff.mp hj).1, rfl⟩
      · exact hrest e' he'

omit [LinearOrder E] [DecidableEq P] in
/-- One datagram that arrives once arrives in time. -/
theorem inTime_of_single (hcopies : ∀ e ∈ events, Copies i 1 e)
    (honce : events.countP (Event.copy i 0) = 1) (settings : SocketSettings) :
    InTime settings (arrivals i events) := by
  have hcount : (events.filter (Event.copyOf i)).length = 1 := by
    rw [← List.countP_eq_length_filter, ← honce]
    refine List.countP_congr fun e he => ⟨fun hcopy => ?_, copyOf_of_copy⟩
    obtain ⟨j, r, hj, rfl⟩ := hcopies e he hcopy
    obtain rfl : j = 0 := by omega
    simp [Event.copy]
  have hlength : (arrivals i events).length ≤ 1 := hcount ▸ List.length_filterMap_le _ _
  unfold InTime
  rcases harrivals : arrivals i events with _ | ⟨r, _ | ⟨r', rs⟩⟩
  · exact List.isChain_nil
  · exact List.isChain_singleton _
  · rw [harrivals, List.length_cons, List.length_cons] at hlength
    omega

omit [LinearOrder E] [DecidableEq P] in
theorem sorted_limits (hclock : Clocked events) :
    ((events.filterMap (visitOf d i m)).map Prod.fst).Pairwise (· ≤ ·) := by
  unfold Clocked at hclock
  rw [List.pairwise_map] at hclock
  rw [visits_limits, List.pairwise_map]
  exact hclock.imp fun h => sub_le_sub_right h _

omit [LinearOrder E] [DecidableEq P] in
theorem onTime_iff_inTime (hcopies : ∀ e ∈ events, Copies i m.partList.length e) :
    Collect.OnTime ⟨∅, (0 : TimePoint)⟩ (events.filterMap (visitOf d i m)) ↔
      InTime d.settings (arrivals i events) :=
  Socket.onTime_iff_isChain (offered_arrivals hcopies).1

omit [LinearOrder E] [DecidableEq P] in
/-- Of the parts that arrive once and in time the last one makes the message complete. -/
theorem replies_of_inTime (hcopies : ∀ e ∈ events, Copies i m.partList.length e)
    (honce : ∀ j < m.partList.length, events.countP (Event.copy i j) = 1)
    (hclock : Clocked events) (htime : InTime d.settings (arrivals i events)) :
    (Collect.visits m.parts ⟨∅, (0 : TimePoint)⟩
        (events.filterMap (visitOf d i m))).1.reduceOption =
      List.replicate (m.partList.length - 1) .pending ++ [.complete] := by
  obtain ⟨hoffers, hcount⟩ := once_of_arrivesOnce (d := d) hcopies honce 0
  have hne : Collect.offered (events.filterMap (visitOf d i m)) ≠ [] := by
    intro hnil
    rw [hnil, m.length_partList] at hcount
    cases hcount
  rw [← hcount]
  exact Collect.visits_of_onTime hoffers hne (sorted_limits hclock)
    ((onTime_iff_inTime hcopies).mpr htime)

omit [LinearOrder E] [DecidableEq P] in
/-- Each part has arrived once, for the message that is complete. -/
theorem got_of_replies (honce : ∀ j < m.partList.length, events.countP (Event.copy i j) = 1)
    (hreplies : (Collect.visits m.parts ⟨∅, (0 : TimePoint)⟩
        (events.filterMap (visitOf d i m))).1.reduceOption =
      List.replicate (m.partList.length - 1) .pending ++ [.complete])
    (hsubset : (Collect.visits m.parts ⟨∅, (0 : TimePoint)⟩
      (events.filterMap (visitOf d i m))).2.got ⊆ m.parts) :
    (Collect.visits m.parts ⟨∅, (0 : TimePoint)⟩ (events.filterMap (visitOf d i m))).2.got = ∅ := by
  rw [Finset.eq_empty_iff_forall_notMem]
  intro part hmem
  have hpart := (Message.mem_iff_of_perm (.refl _)).mpr (hsubset hmem)
  obtain ⟨j, hj, rfl⟩ := List.mem_iff_getElem.mp hpart
  have hle := count_complete_le_countP (d := d) (i := i) (s := ⟨∅, (0 : TimePoint)⟩) rfl
    (List.getElem?_eq_getElem hj) events
  rw [honce j hj, if_pos hmem, hreplies, List.count_append] at hle
  simp at hle

theorem delivered_whole (hx : message.Encoded d.settings.magicHeaderBytes none)
    (hpossible : Machine.Along (step d) (fun w e => Event.Possible d w e) (init rng) events)
    (hrun : (Machine.run (step d) (init rng) events).2 = .ok w')
    (hsent : w'.sent[i]? = some message) (honce : ArrivesOnce i message events) :
    InTime d.settings (arrivals i events) ∧ message.datagrams.length = 1 ∧
      Machine.outputsAt (Event.copyOf i) events (Machine.run (step d) (init rng) events).1 =
        [some ⟨some message.content, .ok⟩] := by
  have hcopies := copies_of_run (wellFormed_init d rng) hpossible hrun hsent
  have hlength : message.datagrams.length = 1 := by
    cases hx with
    | whole _ hdatagrams => rw [hdatagrams, List.length_singleton]
  rw [hlength] at hcopies
  have hzero := honce 0 (by rw [hlength]; exact Nat.one_pos)
  refine ⟨inTime_of_single hcopies hzero _, hlength, ?_⟩
  rw [run_of_whole hx (wellFormed_init d rng) hpossible hrun hsent, hzero]
  rfl

/-- When the datagrams arrive in time, the last one makes the receiver return the message, and
nothing of it is kept. -/
theorem delivered_of_inTime
    (hpossible : Machine.Along (step d) (fun w e => Event.Possible d w e) (init rng) events)
    (hrun : (Machine.run (step d) (init rng) events).2 = .ok w')
    (hsent : w'.sent[i]? = some message)
    (hclock : Clocked events) (honce : ArrivesOnce i message events)
    (htime : InTime d.settings (arrivals i events)) :
    Machine.outputsAt (Event.copyOf i) events (Machine.run (step d) (init rng) events).1 =
        List.replicate (message.datagrams.length - 1) (some ⟨none, .ok⟩) ++
          [some ⟨some message.content, .ok⟩] ∧
      ∀ id, message.id? = some id →
        w'.packages[(⟨message.endpoint, id⟩ : FragmentedPackageKey E)]? = none := by
  obtain ⟨x, hx⟩ := exists_encoded hpossible hrun hsent
  cases x with
  | none =>
    obtain ⟨-, hlength, houts⟩ := delivered_whole hx hpossible hrun hsent honce
    rw [houts, hlength]
    refine ⟨rfl, fun id hid => ?_⟩
    exact absurd (hx.id?_eq_none.symm.trans hid) (Option.some_ne_none id).symm
  | some x =>
    obtain ⟨id, m⟩ := x
    have hlength : message.datagrams.length = m.partList.length := by
      rw [hx.length_datagrams, m.length_partList]
    have hcopies := copies_of_run (wellFormed_init d rng) hpossible hrun hsent
    obtain ⟨houts, hend⟩ := run_visits_of_sent hx (wellFormed_init d rng) hpossible
      (tracks_init i message id m) hrun hsent
    unfold ArrivesOnce at honce
    rw [hlength] at hcopies honce
    have hreplies := replies_of_inTime hcopies honce hclock htime
    refine ⟨?_, fun id' hid' => ?_⟩
    · rw [houts, hreplies, hlength, List.map_append, List.map_replicate]
      cases hx with
      | parts _ _ _ _ hcontent =>
        rw [← hcontent]
        rfl
    · obtain rfl : id = id' := Option.some.inj (hx.id?_eq_some.symm.trans hid')
      rcases hend with ⟨hnone, -⟩ | ⟨-, hrepresents⟩
      · rw [hsent] at hnone
        cases hnone
      · rcases hentry : w'.packages[(⟨message.endpoint, id⟩ : FragmentedPackageKey E)]? with _ | p
        · rfl
        · have hgot := got_of_replies honce hreplies hrepresents.holds.subset
          rw [hentry] at hrepresents
          exact absurd hgot hrepresents.2.1

theorem not_delivered_of_late
    (hpossible : Machine.Along (step d) (fun w e => Event.Possible d w e) (init rng) events)
    (hrun : (Machine.run (step d) (init rng) events).2 = .ok w')
    (hsent : w'.sent[i]? = some message)
    (honce : ArrivesOnce i message events) (hlate : ¬ InTime d.settings (arrivals i events)) :
    messagesOf (Machine.outputsAt (Event.copyOf i) events
      (Machine.run (step d) (init rng) events).1) = [] := by
  obtain ⟨x, hx⟩ := exists_encoded hpossible hrun hsent
  cases x with
  | none => exact absurd (delivered_whole hx hpossible hrun hsent honce).1 hlate
  | some x =>
    obtain ⟨id, m⟩ := x
    have hlength : message.datagrams.length = m.partList.length := by
      rw [hx.length_datagrams, m.length_partList]
    have hcopies := copies_of_run (wellFormed_init d rng) hpossible hrun hsent
    obtain ⟨houts, -⟩ := run_visits_of_sent hx (wellFormed_init d rng) hpossible
      (tracks_init i message id m) hrun hsent
    unfold ArrivesOnce at honce
    rw [hlength] at hcopies honce
    have hoffers := (once_of_arrivesOnce (d := d) hcopies honce 0).1
    rw [← onTime_iff_inTime hcopies] at hlate
    rw [houts, messagesOf_outcomes,
      List.count_eq_zero_of_not_mem (Collect.visits_of_not_onTime hoffers hlate)]
    rfl

/-- Exactly once, or not at all. Whatever else the network does: if the datagrams of a message
arrive once each and follow each other within the maximum age, the last one makes the receiver
return the message, the others nothing, and nothing of it is kept. If they do not, it is never
returned. -/
theorem delivered_once
    (hpossible : Machine.Along (step d) (fun w e => Event.Possible d w e) (init rng) events)
    (hrun : (Machine.run (step d) (init rng) events).2 = .ok w')
    (hsent : w'.sent[i]? = some message)
    (hclock : Clocked events) (honce : ArrivesOnce i message events) :
    (InTime d.settings (arrivals i events) →
      Machine.outputsAt (Event.copyOf i) events (Machine.run (step d) (init rng) events).1 =
          List.replicate (message.datagrams.length - 1) (some ⟨none, .ok⟩) ++
            [some ⟨some message.content, .ok⟩] ∧
        ∀ id, message.id? = some id →
          w'.packages[(⟨message.endpoint, id⟩ : FragmentedPackageKey E)]? = none) ∧
    (¬ InTime d.settings (arrivals i events) →
      messagesOf (Machine.outputsAt (Event.copyOf i) events
        (Machine.run (step d) (init rng) events).1) = []) :=
  ⟨delivered_of_inTime hpossible hrun hsent hclock honce,
    not_delivered_of_late hpossible hrun hsent honce⟩

theorem delivered_once_exchange :
    Machine.outputsAt (Event.copyOf 0) exchange
      (Machine.run (step pair) (init pairRng) exchange).1 =
      [some ⟨none, .ok⟩, some ⟨none, .ok⟩, some ⟨some [1, 2, 3], .ok⟩] := by
  obtain ⟨w, hrun, hsent⟩ := run_exchange
  have hi : w.sent[0]? = some pairMessage := by
    rw [hsent]
    rfl
  exact ((delivered_once possible_exchange hrun hi (by decide) (by decide)).1 (by decide)).1

end Once

/-! ## Without strangers -/

/-- The receiver has, of every fragmented message, some of its parts, and nothing of anyone else. -/
structure Exclusive [LinearOrder E] (d : Deployment E P) (w : Network E P) :
    Prop extends w.WellFormed d where
  tracked : ∀ message ∈ w.sent, ∀ id m, message.Encoded d.settings.magicHeaderBytes (some (id, m)) →
    ∃ s, m.Represents s w.packages[(⟨message.endpoint, id⟩ : FragmentedPackageKey E)]?
  others : ∀ key : FragmentedPackageKey E, d.sender key.endpoint = none → w.packages[key]? = none

/-- The event is a send, or the arrival of a datagram that was sent. -/
def Event.Known (e : Event E) : Prop := ∀ r, e ≠ .receive none r

section Exclusive

variable [LinearOrder E] {w w' : Network E P} {o : Option Outcome}

theorem exclusive_init (d : Deployment E P) (rng : P → Xorshf96) :
    (init rng : Network E P).Exclusive d where
  toWellFormed := wellFormed_init d rng
  tracked message h := by cases h
  others key _ := Std.ExtTreeMap.getElem?_empty

theorem Exclusive.packages_eq_empty (h : w.Exclusive d)
    (hnone : ∀ message ∈ w.sent, ∀ id, message.id? = some id →
      w.packages[(⟨message.endpoint, id⟩ : FragmentedPackageKey E)]? = none) : w.packages = ∅ := by
  refine Std.ExtTreeMap.ext_getElem? fun key => ?_
  rw [Std.ExtTreeMap.getElem?_empty]
  by_cases hsender : d.sender key.endpoint = none
  · exact h.others key hsender
  · by_cases hsent : ∃ message ∈ w.sent, message.endpoint = key.endpoint ∧ message.id? = some key.id
    · obtain ⟨message, hmem, hendpoint, hid⟩ := hsent
      have hkey : (⟨message.endpoint, key.id⟩ : FragmentedPackageKey E) = key := by rw [hendpoint]
      exact hkey ▸ hnone message hmem key.id hid
    · refine h.unused key hsender fun message hmem hendpoint hid =>
        hsent ⟨message, hmem, hendpoint, hid⟩

variable [DecidableEq P]

/-- What was sent arrives without a fault. -/
theorem Exclusive.step_ok (h : w.Exclusive d) {e : Event E} (hpossible : e.Possible d w)
    (hknown : e.Known) :
    ∃ w' o, Network.step d w e = .ok (w', o) := by
  cases e with
  | send endpoint buffers =>
    obtain ⟨rng, message, hsend, -⟩ := h.send hpossible
    exact ⟨_, _, hsend⟩
  | receive origin r =>
    rcases origin with _ | ⟨i, j⟩
    · exact absurd rfl (hknown r)
    · obtain ⟨message, hi, hj, hendpoint⟩ := hpossible
      have hmem := List.mem_of_getElem? hi
      obtain ⟨-, x, hx⟩ := h.encoded message hmem
      cases x with
      | none =>
        obtain ⟨-, hcall⟩ := receive_whole hx hj w.packages
        exact ⟨_, _, congrArg (Except.map _) hcall⟩
      | some x =>
        obtain ⟨s, hs⟩ := h.tracked message hmem x.1 x.2 hx
        obtain ⟨part, w', -, hcall, -⟩ := tracks_copy hx hi hs hj hendpoint
        exact ⟨w', _, hcall⟩

theorem Exclusive.step (h : w.Exclusive d) {e : Event E} (hpossible : e.Possible d w)
    (hknown : e.Known) (hstep : Network.step d w e = .ok (w', o)) : w'.Exclusive d := by
  obtain ⟨hwf, hprefix⟩ := h.toWellFormed.step hpossible hstep
  refine ⟨hwf, fun message hmem id m hx => ?_, fun key hkey => ?_⟩
  · obtain ⟨i, hi⟩ := List.getElem?_of_mem hmem
    have hfinal : ∀ other, w'.sent[i]? = some other → other = message := fun other hother =>
      Option.some.inj (hother.symm.trans hi)
    have htracks : ∃ s, Tracks i message id m w s := by
      rcases hsent : w.sent[i]? with _ | other
      · exact ⟨⟨∅, 0⟩, Or.inl ⟨hsent, rfl⟩⟩
      · have hother : w'.sent[i]? = some other := by
          obtain ⟨later, hlater⟩ := hprefix
          rw [← hlater, List.getElem?_append_left (List.getElem?_eq_some_iff.mp hsent).1, hsent]
        obtain rfl := hfinal other hother
        obtain ⟨s, hs⟩ := h.tracked other (List.mem_of_getElem? hsent) id m hx
        exact ⟨s, Or.inr ⟨hsent, hs⟩⟩
    obtain ⟨s, hs⟩ := htracks
    have hnext : ∃ s', Tracks i message id m w' s' := by
      have hvisit := tracks_step hx h.toWellFormed hpossible hs hstep hfinal
      split at hvisit
      · exact ⟨_, hvisit.1⟩
      · exact ⟨_, hvisit.1⟩
    obtain ⟨s', hs'⟩ := hnext
    rcases hs' with ⟨hnone, -⟩ | ⟨-, hrepresents⟩
    · rw [hi] at hnone
      cases hnone
    · exact ⟨s', hrepresents⟩
  · cases e with
    | send endpoint buffers =>
      obtain ⟨rng, message, hsend, -⟩ := h.send hpossible
      rw [hsend] at hstep
      cases hstep
      exact h.others key hkey
    | receive origin r =>
      rcases origin with _ | ⟨i, j⟩
      · exact absurd rfl (hknown r)
      · obtain ⟨message, hi, -, hendpoint⟩ := hpossible
        have hne : r.senderEndpoint ≠ key.endpoint := by
          intro heq
          rw [← heq, hendpoint] at hkey
          exact (h.encoded message (List.mem_of_getElem? hi)).1 hkey
        obtain ⟨⟨packages, outcome⟩, hsocket, heq⟩ := Machine.map_eq_ok.mp hstep
        cases heq
        show packages[key]? = none
        rw [Socket.getElem?_of_arrivalAt_none (Socket.arrivalAt_of_ne hne) hsocket,
          h.others key hkey]
        rfl

end Exclusive

section All

variable [LinearOrder E] [DecidableEq P] {w' : Network E P} {events : List (Event E)}
  {rng : P → Xorshf96}

theorem Exclusive.run {w : Network E P} (h : w.Exclusive d)
    (hpossible : Machine.Along (Network.step d) (fun w e => Event.Possible d w e) w events)
    (hknown : ∀ e ∈ events, e.Known) :
    ∃ w', (Machine.run (Network.step d) w events).2 = .ok w' ∧ w'.Exclusive d := by
  refine (Machine.run_ok_of_invariant (fun w e h hP => ?_) h
    (hpossible.and (.of_forall_mem hknown))).1
  obtain ⟨w', o, hstep⟩ := h.step_ok hP.1 hP.2
  exact ⟨w', o, hstep, h.step hP.1 hP.2 hstep⟩

/-- The message that an arriving datagram belongs to. -/
def Event.index : Event E → Option ℕ
  | .receive (some (i, _)) _ => some i
  | _ => none

omit [LinearOrder E] in
theorem Event.copyOf_eq (i : ℕ) : (Event.copyOf i : Event E → Bool) = fun e =>
    e.index == some i := by
  funext e
  cases e with
  | send endpoint buffers => rfl
  | receive origin r => rcases origin with _ | ⟨i', j⟩ <;> rfl

/-- What arrives without strangers belongs to a message that was sent; a send returns nothing. -/
theorem exists_index_of_output {w : Network E P} (h : w.WellFormed d)
    (hpossible : Machine.Along (step d) (fun w e => Event.Possible d w e) w events)
    (hknown : ∀ e ∈ events, e.Known) (hrun : (Machine.run (step d) w events).2 = .ok w') :
    ∀ p ∈ events.zip (Machine.run (step d) w events).1, p.2 ≠ none →
      ∃ k < w'.sent.length, p.1.index = some k := by
  induction events generalizing w with
  | nil => exact fun p hp => by cases hp
  | cons e events ih =>
    rcases he : step d w e with f | ⟨w₁, o⟩
    · rw [Machine.run_cons_error he] at hrun
      cases hrun
    · have hsent := (h.run hpossible hrun).2
      rw [Machine.run_cons_ok he] at hrun ⊢
      rw [List.zip_cons_cons]
      intro p hp hne
      rcases List.mem_cons.mp hp with rfl | hp
      · cases e with
        | send endpoint buffers =>
          obtain ⟨rng, message, hsend, -⟩ := h.send hpossible.1
          rw [hsend] at he
          cases he
          exact absurd rfl hne
        | receive origin r =>
          rcases origin with _ | ⟨i, j⟩
          · exact absurd rfl (hknown _ List.mem_cons_self r)
          · obtain ⟨message, hi, -⟩ := hpossible.1
            exact ⟨i, Nat.lt_of_lt_of_le (List.getElem?_eq_some_iff.mp hi).1 hsent.length_le, rfl⟩
      · exact ih (h.step hpossible.1 he).1 (hpossible.2 w₁ o he)
          (fun e' he' => hknown e' (List.mem_cons_of_mem _ he')) hrun p hp hne

/-- All of them, and nothing else. Without strangers the receiver never faults, whatever the network
loses, repeats and delays. If the datagrams of all messages arrive once each, in any order but in
time, it returns every message once and keeps nothing. -/
theorem all_delivered
    (hpossible : Machine.Along (step d) (fun w e => Event.Possible d w e) (init rng) events)
    (hknown : ∀ e ∈ events, e.Known) (hclock : Clocked events) :
    ∃ w', (Machine.run (step d) (init rng) events).2 = .ok w' ∧
      ((∀ i message, w'.sent[i]? = some message →
          ArrivesOnce i message events ∧ InTime d.settings (arrivals i events)) →
        (messagesOf (Machine.run (step d) (init rng) events).1).Perm
          (w'.sent.map SentMessage.content) ∧ w'.packages = ∅) := by
  obtain ⟨w', hrun, hexclusive⟩ := (exclusive_init d rng).run hpossible hknown
  refine ⟨w', hrun, fun harrive => ?_⟩
  have honce (i : ℕ) (message : SentMessage E) (hi : w'.sent[i]? = some message) :=
    delivered_of_inTime hpossible hrun hi hclock (harrive i message hi).1 (harrive i message hi).2
  constructor
  · have hperm := Machine.perm_flatMap_outputsAt (fun o : Option Outcome => o.bind Outcome.message)
      Event.index (Machine.length_run hrun).symm fun p hp hne =>
        exists_index_of_output (wellFormed_init d rng) hpossible hknown hrun p hp fun hnone =>
          hne (by rw [hnone]; rfl)
    have hmessages (k : ℕ) (hk : k ∈ List.range w'.sent.length) :
        (Machine.outputsAt (fun e => Event.index e == some k) events
            (Machine.run (step d) (init rng) events).1).filterMap
              (fun o => o.bind Outcome.message) =
          [(w'.sent.map SentMessage.content).getD k []] := by
      have hlt := List.mem_range.mp hk
      rw [← Event.copyOf_eq, (honce k _ (List.getElem?_eq_getElem hlt)).1]
      simp [List.filterMap_append, hlt]
    rw [List.flatMap_congr hmessages, ← List.map_eq_flatMap] at hperm
    refine hperm.symm.trans (List.Perm.of_eq (List.ext_getElem (by simp) fun k hk hk' => ?_))
    rw [List.length_map] at hk'
    simp [hk']
  · refine hexclusive.packages_eq_empty fun message hmem id hid => ?_
    obtain ⟨i, hi⟩ := List.getElem?_of_mem hmem
    exact (honce i message hi).2 id hid

theorem known_exchange : ∀ e ∈ exchange, e.Known := by
  intro e he
  fin_cases he <;> exact fun r h => by cases h

theorem all_delivered_exchange :
    ∃ w, (Machine.run (step pair) (init pairRng) exchange).2 = .ok w ∧
      (messagesOf (Machine.run (step pair) (init pairRng) exchange).1).Perm [[1, 2, 3]] ∧
      w.packages = ∅ := by
  obtain ⟨w, hrun, hsent⟩ := run_exchange
  obtain ⟨w', hrun', hdelivered⟩ := all_delivered possible_exchange known_exchange (by decide)
  obtain rfl : w = w' := Except.ok.inj (hrun.symm.trans hrun')
  have harrive : ∀ i message, w.sent[i]? = some message →
      ArrivesOnce i message exchange ∧ InTime pair.settings (arrivals i exchange) := by
    intro i message hi
    rw [hsent, List.getElem?_singleton] at hi
    split_ifs at hi with hzero
    obtain rfl := Option.some.inj hi
    subst hzero
    exact ⟨by decide, by decide⟩
  have hend := hdelivered harrive
  rw [hsent] at hend
  exact ⟨w, hrun, hend⟩

end All

end Network

end Ecaludp
