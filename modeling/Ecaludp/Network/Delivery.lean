import Ecaludp.Network.Invariant

/-!
# What a network delivers

Seen from one fragmented message, a run of the network is a run of visits to the collector of its
parts (`run_visits_of_sent`). So the message is delivered at most as often as any datagram of it
arrives, and if every datagram arrives once and in time, exactly once.
-/

namespace Ecaludp

open ByteOrder Reassembly

namespace Network

variable {E P : Type} {d : Deployment E P} {i : ℕ} {id : Int32}
  {m : Message} {message : SentMessage E}

/-- What an event is to the collector of message `i`: an arrival prunes, and the datagrams of the
message are offered. -/
def visitOf (d : Deployment E P) (i : ℕ) (m : Message) :
    Event E → Option (TimePoint × Option (TimePoint × Part))
  | .send _ _ => none
  | .receive (some (i', j)) r => some (Socket.limit d.settings r,
      if i' = i then m.partList[j]?.map fun part => (r.env.now, part) else none)
  | .receive none r => some (Socket.limit d.settings r, none)

theorem visitOf_of_not_copy {origin : Option (ℕ × ℕ)} {r : Receipt E}
    (h : ∀ j, origin ≠ some (i, j)) :
    visitOf d i m (.receive origin r) = some (Socket.limit d.settings r, none) ∧
      (Event.receive origin r).copyOf i = false := by
  rcases origin with _ | ⟨i', j⟩
  · exact ⟨rfl, rfl⟩
  · have hne : i' ≠ i := fun heq => h j (by rw [heq])
    simp [visitOf, Event.copyOf, hne]

theorem copyOf_of_copy {j : ℕ} {e : Event E} (h : e.copy i j = true) : e.copyOf i = true := by
  cases e with
  | send endpoint buffers => cases h
  | receive origin r =>
    rcases origin with _ | origin
    · cases h
    · obtain rfl : origin = (i, j) := by simpa [Event.copy] using h
      simp [Event.copyOf]

section Step

variable [LinearOrder E]

/-- The message is not sent yet and its collector empty, or it is sent and the collector has what
the receiver has of it. -/
def Tracks (i : ℕ) (message : SentMessage E) (id : Int32) (m : Message) (w : Network E P)
    (s : Collect.State Part TimePoint) : Prop :=
  w.sent[i]? = none ∧ s.got = ∅ ∨
    w.sent[i]? = some message ∧
      m.Represents s w.packages[(⟨message.endpoint, id⟩ : FragmentedPackageKey E)]?

variable {w w' : Network E P} {s : Collect.State Part TimePoint} {o : Option Outcome}
  (hencoded : message.Encoded d.settings.magicHeaderBytes (some (id, m)))

include hencoded

/-- Nothing but the datagrams of a message arrives at its entry. -/
theorem arrivalAt_of_not_copy (h : w.WellFormed d) (hi : w.sent[i]? = some message)
    {origin : Option (ℕ × ℕ)} {r : Receipt E} (hpossible : Event.Possible d w (.receive origin r))
    (hcopy : ∀ j, origin ≠ some (i, j)) :
    Socket.arrivalAt d.host d.settings
      (⟨message.endpoint, id⟩ : FragmentedPackageKey E) r = none := by
  have hsender := (h.encoded message (List.mem_of_getElem? hi)).1
  rcases h.arrivalAt_cases hpossible ⟨message.endpoint, id⟩ hsender with
    hnone | ⟨i', j, other, m', rfl, hi', hx, hendpoint⟩
  · exact hnone
  · have hid : other.id? = message.id? := by rw [hx.id?_eq_some, hencoded.id?_eq_some]
    refine absurd (congrArg (fun k => some (k, j)) (h.index_unique hi' hi hendpoint hid ?_))
      (hcopy j)
    rw [hx.id?_eq_some]
    exact Option.some_ne_none _

variable [DecidableEq P]

theorem tracks_copy (hi : w.sent[i]? = some message)
    (hs : m.Represents s w.packages[(⟨message.endpoint, id⟩ : FragmentedPackageKey E)]?) {j : ℕ}
    {r : Receipt E} (hj : message.datagrams[j]? = some r.buffer.bytes)
    (hendpoint : r.senderEndpoint = message.endpoint) :
    ∃ part w', m.partList[j]? = some part ∧
      step d w (.receive (some (i, j)) r) = .ok (w', some (m.outcome
        (Collect.offer m.parts r.env.now (Collect.expire (Socket.limit d.settings r) s) part).2)) ∧
      w'.sent = w.sent ∧ Tracks i message id m w'
        (Collect.offer m.parts r.env.now
          (Collect.expire (Socket.limit d.settings r) s) part).1 := by
  obtain ⟨part, hpart, hmem, hbytes⟩ := hencoded.exists_part hj
  obtain ⟨a, harr, hreads⟩ := Message.arrivalOf_encode d.host hbytes
  have harrival : Socket.arrivalOf d.host d.settings r.buffer = some (id, a) := by
    unfold Socket.arrivalOf
    rw [if_pos (Socket.passesHeader_of_encode hbytes), harr]
  obtain ⟨entry, hentry, hrepresents⟩ := Message.step_of_reads
    (hs.prune (Socket.limit d.settings r)) hmem hreads r.env.now
  have hstep := Socket.step_of_arrivalOf d.host w.packages harrival
  rw [hendpoint, hentry] at hstep
  let key : FragmentedPackageKey E := ⟨message.endpoint, id⟩
  let packages := EntryMap.put (w.packages.removeOldPackages (Socket.limit d.settings r)) key entry
  refine ⟨part, { w with packages := packages }, hpart, ?_, rfl, Or.inr ⟨hi, ?_⟩⟩
  · show (Socket.step d.host d.settings w.packages r).map _ = _
    rw [hstep]
    rfl
  · show m.Represents _ packages[key]?
    rw [EntryMap.getElem?_put_self]
    exact hrepresents

/-- One event, seen from one message. -/
theorem tracks_step (h : w.WellFormed d) {e : Event E} (hpossible : e.Possible d w)
    (hs : Tracks i message id m w s) (hstep : step d w e = .ok (w', o))
    (hfinal : ∀ other, w'.sent[i]? = some other → other = message) :
    match visitOf d i m e with
    | none => Tracks i message id m w' s ∧ e.copyOf i = false
    | some v => Tracks i message id m w' (Collect.visit m.parts s v).1 ∧
        (Collect.visit m.parts s v).2.map (fun reply => some (m.outcome reply)) =
          if e.copyOf i then some o else none := by
  cases e with
  | send endpoint buffers =>
    refine ⟨?_, rfl⟩
    obtain ⟨rng, sent, hsend, -, hunused⟩ := h.send hpossible
    rw [hsend] at hstep
    cases hstep
    rcases hs with ⟨hi, hgot⟩ | ⟨hi, hrepresents⟩
    · rcases hi' : (w.sent ++ [sent])[i]? with _ | other
      · exact Or.inl ⟨hi', hgot⟩
      · -- the message is the one that is sent now
        obtain rfl := hfinal other hi'
        have hsent : other = sent := by
          have hlength := List.getElem?_eq_none_iff.mp hi
          rw [List.getElem?_append_right hlength, List.getElem?_singleton] at hi'
          split_ifs at hi'
          exact (Option.some.inj hi').symm
        subst hsent
        refine Or.inr ⟨hi', ?_⟩
        show m.Represents s w.packages[_]?
        rw [hunused id hencoded.id?_eq_some]
        exact hgot
    · refine Or.inr ⟨?_, hrepresents⟩
      rw [← hi]
      exact List.getElem?_append_left (List.getElem?_eq_some_iff.mp hi).1
  | receive origin r =>
    have hsent := (h.receive hpossible hstep).2
    by_cases hcopy : ∃ j, origin = some (i, j)
    · obtain ⟨j, rfl⟩ := hcopy
      obtain ⟨other, hi, hj, hendpoint⟩ := hpossible
      obtain rfl := hfinal other (hsent ▸ hi)
      have hrepresents :
          m.Represents s w.packages[(⟨other.endpoint, id⟩ : FragmentedPackageKey E)]? := by
        rcases hs with ⟨hnone, -⟩ | ⟨-, hrepresents⟩
        · rw [hi] at hnone
          cases hnone
        · exact hrepresents
      obtain ⟨part, w₁, hpart, hcall, -, htracks⟩ :=
        tracks_copy hencoded hi hrepresents hj hendpoint
      rw [hcall] at hstep
      cases hstep
      simp only [visitOf, if_true, hpart, Option.map_some, Event.copyOf, beq_self_eq_true]
      exact ⟨htracks, rfl⟩
    · have hnot : ∀ j, origin ≠ some (i, j) := fun j hj => hcopy ⟨j, hj⟩
      obtain ⟨hvisit, hother⟩ := visitOf_of_not_copy (d := d) (m := m) (r := r) hnot
      rw [hvisit, hother]
      refine ⟨?_, rfl⟩
      rcases hs with ⟨hi, hgot⟩ | ⟨hi, hrepresents⟩
      · refine Or.inl ⟨hsent ▸ hi, Finset.subset_empty.mp ?_⟩
        exact hgot ▸ Collect.expire_got_subset _ s
      · refine Or.inr ⟨hsent ▸ hi, ?_⟩
        have hnone := arrivalAt_of_not_copy hencoded h hi hpossible hnot
        obtain ⟨⟨packages, outcome⟩, hsocket, heq⟩ := Machine.map_eq_ok.mp hstep
        cases heq
        show m.Represents _ packages[_]?
        rw [Socket.getElem?_of_arrivalAt_none hnone hsocket]
        exact hrepresents.prune _

end Step

/-! ## Runs -/

section Run

variable [LinearOrder E] [DecidableEq P] {w w' : Network E P} {events : List (Event E)}

/-- A run leaves the network as it should be; what was sent stays sent. -/
theorem WellFormed.run (h : w.WellFormed d)
    (hpossible : Machine.Along (Network.step d) (fun w e => Event.Possible d w e) w events)
    (hrun : (Machine.run (Network.step d) w events).2 = .ok w') :
    w'.WellFormed d ∧ w.sent <+: w'.sent := by
  induction events generalizing w with
  | nil =>
    cases hrun
    exact ⟨h, List.prefix_rfl⟩
  | cons e events ih =>
    rcases he : Network.step d w e with f | ⟨w₁, o⟩
    · rw [Machine.run_cons_error he] at hrun
      cases hrun
    · rw [Machine.run_cons_ok he] at hrun
      obtain ⟨hwf, hprefix⟩ := h.step hpossible.1 he
      obtain ⟨hwf', hprefix'⟩ := ih hwf (hpossible.2 w₁ o he) hrun
      exact ⟨hwf', hprefix.trans hprefix'⟩

theorem sent_of_run (h : w.WellFormed d)
    (hpossible : Machine.Along (step d) (fun w e => Event.Possible d w e) w events)
    (hrun : (Machine.run (step d) w events).2 = .ok w') (hsent : w'.sent[i]? = some message)
    (other : SentMessage E) (hother : w.sent[i]? = some other) : other = message := by
  obtain ⟨later, hlater⟩ := (h.run hpossible hrun).2
  rw [← hlater, List.getElem?_append_left (List.getElem?_eq_some_iff.mp hother).1, hother] at hsent
  exact Option.some.inj hsent

/-- A run of the network, seen from one fragmented message, is a run of visits to its collector. -/
theorem run_visits_of_sent (hencoded : message.Encoded d.settings.magicHeaderBytes (some (id, m)))
    (h : w.WellFormed d)
    (hpossible : Machine.Along (step d) (fun w e => Event.Possible d w e) w events)
    {s : Collect.State Part TimePoint} (hs : Tracks i message id m w s)
    (hrun : (Machine.run (step d) w events).2 = .ok w') (hsent : w'.sent[i]? = some message) :
    Machine.outputsAt (Event.copyOf i) events (Machine.run (step d) w events).1 =
        (Collect.visits m.parts s (events.filterMap (visitOf d i m))).1.reduceOption.map
          (fun reply => some (m.outcome reply)) ∧
      Tracks i message id m w' (Collect.visits m.parts s (events.filterMap (visitOf d i m))).2 := by
  induction events generalizing w s with
  | nil =>
    cases hrun
    exact ⟨rfl, hs⟩
  | cons e events ih =>
    rcases he : step d w e with f | ⟨w₁, o⟩
    · rw [Machine.run_cons_error he] at hrun
      cases hrun
    · rw [Machine.run_cons_ok he] at hrun ⊢
      have hwf := (h.step hpossible.1 he).1
      have hrest := hpossible.2 w₁ o he
      have hfinal := sent_of_run hwf hrest hrun hsent
      have hstep := tracks_step hencoded h hpossible.1 hs he hfinal
      rcases hv : visitOf d i m e with _ | v <;> rw [hv] at hstep
      · obtain ⟨htracks, hother⟩ := hstep
        rw [List.filterMap_cons_none hv, Machine.outputsAt_cons_of_neg hother]
        exact ih hwf hrest htracks hrun
      · obtain ⟨htracks, hreply⟩ := hstep
        obtain ⟨houts, hend⟩ := ih hwf hrest htracks hrun
        rw [List.filterMap_cons_some hv, Collect.visits]
        refine ⟨?_, hend⟩
        cases hcopy : e.copyOf i with
        | true =>
          rw [hcopy, if_pos rfl] at hreply
          obtain ⟨reply, hsome, rfl⟩ := Option.map_eq_some_iff.mp hreply
          rw [Machine.outputsAt_cons_of_pos hcopy, houts]
          simp only [hsome, List.reduceOption_cons_of_some, List.map_cons]
        | false =>
          rw [hcopy, if_neg Bool.false_ne_true] at hreply
          rw [Machine.outputsAt_cons_of_neg hcopy, houts]
          simp only [Option.map_eq_none_iff.mp hreply, List.reduceOption_cons_of_none]

omit [DecidableEq P] in
theorem receive_whole (hencoded : message.Encoded d.settings.magicHeaderBytes none)
    {j : ℕ} {r : Receipt E}
    (hj : message.datagrams[j]? = some r.buffer.bytes) (packages : Reassembly E) :
    j = 0 ∧ Socket.step d.host d.settings packages r =
      .ok (packages.removeOldPackages (Socket.limit d.settings r),
        ⟨some message.content, .ok⟩) := by
  cases hencoded with
  | whole hlength hdatagrams =>
    rw [hdatagrams, List.getElem?_singleton] at hj
    split_ifs at hj with hzero
    obtain ⟨harr, hother⟩ := Socket.arrivalOf_of_wireNonFragmented d.host hlength
      (Option.some.inj hj).symm
    rw [Socket.step_of_arrivalOf_none d.host packages harr, hother]
    exact ⟨hzero, rfl⟩

theorem run_of_whole (hencoded : message.Encoded d.settings.magicHeaderBytes none)
    (h : w.WellFormed d)
    (hpossible : Machine.Along (step d) (fun w e => Event.Possible d w e) w events)
    (hrun : (Machine.run (step d) w events).2 = .ok w') (hsent : w'.sent[i]? = some message) :
    Machine.outputsAt (Event.copyOf i) events (Machine.run (step d) w events).1 =
      List.replicate (events.countP (Event.copy i 0)) (some ⟨some message.content, .ok⟩) := by
  induction events generalizing w with
  | nil => rfl
  | cons e events ih =>
    rcases he : step d w e with f | ⟨w₁, o⟩
    · rw [Machine.run_cons_error he] at hrun
      cases hrun
    · rw [Machine.run_cons_ok he] at hrun ⊢
      have hwf := (h.step hpossible.1 he).1
      have hrest := hpossible.2 w₁ o he
      have hrec := ih hwf hrest hrun
      rw [List.countP_cons]
      have hsame : e.copyOf i = true → e.copy i 0 = true ∧
          o = some ⟨some message.content, .ok⟩ := by
        intro hcopy
        cases e with
        | send endpoint buffers => cases hcopy
        | receive origin r =>
          rcases origin with _ | ⟨i', j⟩
          · cases hcopy
          · obtain rfl : i' = i := by simpa [Event.copyOf] using hcopy
            obtain ⟨other, hi, hj, -⟩ := hpossible.1
            obtain rfl := sent_of_run h hpossible (Machine.run_cons_ok he _ ▸ hrun) hsent other hi
            obtain ⟨rfl, hcall⟩ := receive_whole hencoded hj w.packages
            have hstep : step d w (.receive (some (i', 0)) r) = _ := congrArg (Except.map _) hcall
            rw [hstep] at he
            cases he
            exact ⟨by simp [Event.copy], rfl⟩
      cases hcopy : e.copyOf i with
      | true =>
        obtain ⟨hzero, rfl⟩ := hsame hcopy
        rw [Machine.outputsAt_cons_of_pos hcopy, hrec, if_pos hzero, List.replicate_succ]
      | false =>
        have hzero : ¬ e.copy i 0 = true := by
          intro hzero
          rw [copyOf_of_copy hzero] at hcopy
          cases hcopy
        rw [Machine.outputsAt_cons_of_neg hcopy, hrec, if_neg hzero, Nat.add_zero]

end Run

/-! ## Counting copies -/

section Count

theorem copy_iff_visitOf {j : ℕ} {part : Part} (hj : m.partList[j]? = some part) (e : Event E) :
    e.copy i j = true ↔ ∃ limit now, visitOf d i m e = some (limit, some (now, part)) := by
  cases e with
  | send endpoint buffers => simp [Event.copy, visitOf]
  | receive origin r =>
    rcases origin with _ | ⟨i', j'⟩
    · simp [Event.copy, visitOf]
    · have hindex : m.partList[j']? = some part ↔ j' = j := by
        constructor
        · intro hj'
          have hlt : j' < m.partList.length := (List.getElem?_eq_some_iff.mp hj').1
          exact (List.getElem?_inj hlt m.nodup_partList).mp (hj'.trans hj.symm)
        · rintro rfl
          exact hj
      by_cases hi : i' = i
      · simp [Event.copy, visitOf, hi, hindex]
      · simp [Event.copy, visitOf, hi]

theorem count_offered {j : ℕ} {part : Part} (hj : m.partList[j]? = some part)
    (events : List (Event E)) :
    ((Collect.offered (events.filterMap (visitOf d i m))).map fun x => x.2.2).count part =
      events.countP (Event.copy i j) := by
  induction events with
  | nil => rfl
  | cons e events ih =>
    have hcopy := copy_iff_visitOf (d := d) (i := i) hj e
    rw [List.countP_cons]
    rcases hv : visitOf d i m e with _ | ⟨limit, _ | ⟨now, part'⟩⟩ <;> rw [hv] at hcopy
    · rw [List.filterMap_cons_none hv, ih, if_neg (by simp [hcopy]), Nat.add_zero]
    · rw [List.filterMap_cons_some hv, Collect.offered_cons_none, ih, if_neg (by simp [hcopy]),
        Nat.add_zero]
    · rw [List.filterMap_cons_some hv, Collect.offered_cons_some, List.map_cons,
        List.count_cons, ih]
      refine congrArg (_ + ·) (if_congr ?_ rfl rfl)
      simp [hcopy]

/-- The count of completed collections is at most that of the arrivals of each datagram, less one if
the receiver still has the datagram. -/
theorem count_complete_le_countP {s : Collect.State Part TimePoint} (hs : s.got = ∅)
    {j : ℕ} {part : Part} (hj : m.partList[j]? = some part) (events : List (Event E)) :
    (Collect.visits m.parts s (events.filterMap (visitOf d i m))).1.reduceOption.count .complete +
        (if part ∈ (Collect.visits m.parts s (events.filterMap (visitOf d i m))).2.got
          then 1 else 0) ≤
      events.countP (Event.copy i j) := by
  have hmem : part ∈ m.parts := (Message.mem_iff_of_perm (.refl _)).mp (List.mem_of_getElem? hj)
  have hle := Collect.count_complete_le hmem s (events.filterMap (visitOf d i m))
  rwa [count_offered hj, hs, if_neg (Finset.notMem_empty part), Nat.add_zero] at hle

theorem messagesOf_outcomes (m : Message) (replies : List Collect.Reply) :
    messagesOf (replies.map fun reply => some (m.outcome reply)) =
      List.replicate (replies.count .complete) m.chunks.flatten := by
  induction replies with
  | nil => rfl
  | cons reply replies ih =>
    rw [List.map_cons, messagesOf_cons, ih]
    cases reply <;> simp [Message.outcome, List.replicate_succ]

end Count

/-! ## Delivery -/

section Delivery

variable [LinearOrder E] [DecidableEq P] {w' : Network E P} {events : List (Event E)}
  {rng : P → Xorshf96}

omit [DecidableEq P] in
theorem tracks_init (i : ℕ) (message : SentMessage E) (id : Int32) (m : Message) :
    Tracks i message id m (init rng : Network E P) ⟨∅, 0⟩ := Or.inl ⟨rfl, rfl⟩

theorem exists_encoded
    (hpossible : Machine.Along (step d) (fun w e => Event.Possible d w e) (init rng) events)
    (hrun : (Machine.run (step d) (init rng) events).2 = .ok w')
    (hsent : w'.sent[i]? = some message) :
    ∃ x, message.Encoded d.settings.magicHeaderBytes x :=
  (((wellFormed_init d rng).run hpossible hrun).1.encoded message (List.mem_of_getElem? hsent)).2

end Delivery

end Network

end Ecaludp
