import Ecaludp.Socket.Receive
import Ecaludp.Reassembly.Message

/-!
# The reassembly timeout

Every call of a socket removes the packages whose last access is more than the maximum age before
the call, and an info or fragment that is accepted sets the last access of its package. So the
accepted datagrams of a package follow each other within the maximum age (`watch_isChain`), and the
parts of a message, handled once each, give the message exactly when they do (`run_of_parts_once`).
-/

namespace Ecaludp

open ByteOrder Reassembly EntryMap

variable {E : Type} [LinearOrder E]

namespace Entry

/-- A call seen from one entry: it is pruned, then the handler takes its step if the call hands in a
datagram of the key. -/
def visit (entry : Entry) (v : TimePoint × Option (TimePoint × Arrival)) :
    Except Fault (Entry × Option Outcome) :=
  match v.2 with
  | none => .ok (entry.prune v.1, none)
  | some x => handle (entry.prune v.1) x

end Entry

namespace Socket

variable {host : ByteOrder} {settings : SocketSettings} {key : FragmentedPackageKey E}
  {packages packages' : Reassembly E}

/-- What the call hands in for `key`, with the time at which its handler reads the clock. -/
def arrivalAt (host : ByteOrder) (settings : SocketSettings) (key : FragmentedPackageKey E)
    (r : Receipt E) : Option (TimePoint × Arrival) :=
  match arrivalOf host settings r.buffer with
  | some (id, a) =>
    if (⟨r.senderEndpoint, id⟩ : FragmentedPackageKey E) = key then some (r.env.now, a) else none
  | none => none

/-- The call hands in an info or fragment datagram of `key` that reaches the reassembly. -/
def concerns (host : ByteOrder) (settings : SocketSettings) (key : FragmentedPackageKey E)
    (r : Receipt E) : Bool :=
  (arrivalAt host settings key r).isSome

theorem visit_of_step (key : FragmentedPackageKey E) {r : Receipt E} {o : Outcome}
    (h : step host settings packages r = .ok (packages', o)) :
    Entry.visit packages[key]? (limit settings r, arrivalAt host settings key r) =
      .ok (packages'[key]?, if concerns host settings key r then some o else none) := by
  unfold concerns arrivalAt
  rcases harr : arrivalOf host settings r.buffer with _ | ⟨id, a⟩
  · rw [step_of_arrivalOf_none host packages harr] at h
    cases h
    rw [getElem?_removeOldPackages]
    rfl
  · rw [step_of_arrivalOf host packages harr] at h
    obtain ⟨x, hx, hxo⟩ := Machine.map_eq_ok.mp h
    cases hxo
    by_cases hkey : (⟨r.senderEndpoint, id⟩ : FragmentedPackageKey E) = key
    · subst hkey
      simp only [if_pos, getElem?_put_self]
      exact Entry.handle_of_step hx
    · simp only [if_neg hkey, getElem?_put_of_ne _ hkey]
      rw [getElem?_removeOldPackages]
      rfl

/-! ## Accepted datagrams -/

/-- An accepted datagram: the reading of the clock for the removal of old packages and the one for
the last access. -/
structure Acceptance where
  pruneNow : TimePoint
  accessNow : TimePoint

/-- A call, with a record of the datagrams of `key` that were accepted since its package was
created, the latest first. -/
def watch (host : ByteOrder) (settings : SocketSettings) (key : FragmentedPackageKey E)
    (s : Reassembly E × List Acceptance) (r : Receipt E) :
    Except Fault ((Reassembly E × List Acceptance) × (Outcome × List Acceptance)) :=
  (step host settings s.1 r).map fun x =>
    -- without a package there is nothing yet that was accepted for it
    let accepted := if (s.1.removeOldPackages (limit settings r))[key]?.isSome then s.2 else []
    let accepted := if concerns host settings key r ∧ ¬ Rejection x.2.errorCode then
      ⟨r.pruneNow, r.env.now⟩ :: accepted else accepted
    ((x.1, accepted), (x.2, accepted))

/-- The later datagram was handled within the age of the earlier one. -/
def Within (age : Duration) (later earlier : Acceptance) : Prop :=
  later.pruneNow - earlier.accessNow ≤ age

/-- The record of a stored package has no gap, and begins with its last access. -/
def Recorded (age : Duration) (entry : Entry) (accepted : List Acceptance) : Prop :=
  ∀ p, entry = some p →
    accepted.IsChain (Within age) ∧ ∀ x ∈ accepted.head?, p.info.lastAccess = x.accessNow

theorem lastAccess_rejected {entry : Entry} {p q : FragmentedPackage} {a : Arrival}
    (hp : entry = some p) (hq : entry.rejected a = some q) :
    q.info.lastAccess = p.info.lastAccess := by
  subst hp
  cases a with
  | info num len =>
    cases hq
    rfl
  | fragment num view =>
    cases hq
    rfl

/-- The record after the removal of old packages: of the package that is left, if there is one, and
then within the maximum age. -/
structure Kept (age : Duration) (pruneNow : TimePoint) (entry : Entry)
    (accepted : List Acceptance) :
    Prop where
  recorded : Recorded age entry accepted
  chain : accepted.IsChain (Within age)
  within : ∀ x ∈ accepted.head?, pruneNow - x.accessNow ≤ age
  eq_nil : entry = none → accepted = []

theorem Recorded.kept {age : Duration} {entry : Entry} {accepted : List Acceptance}
    (h : Recorded age entry accepted) (pruneNow : TimePoint) :
    Kept age pruneNow (entry.prune (pruneNow - age))
      (if (entry.prune (pruneNow - age)).isSome then accepted else []) := by
  rcases hpruned : entry.prune (pruneNow - age) with _ | p
  · refine ⟨?_, List.isChain_nil, ?_, fun _ => rfl⟩
    · intro p hp
      cases hp
    · intro x hx
      cases hx
  · obtain ⟨hp, hlimit⟩ := Entry.prune_eq_some.mp hpruned
    obtain ⟨hchain, hhead⟩ := h p hp
    refine ⟨?_, hchain, ?_, ?_⟩
    · intro q hq
      cases hq
      exact ⟨hchain, hhead⟩
    · intro x hx
      rw [← hhead x hx]
      exact sub_le_comm.mp hlimit
    · intro hnone
      cases hnone

/-- An accepted datagram begins the record anew, a rejected one leaves it. -/
theorem Kept.step {age : Duration} {pruneNow now : TimePoint} {entry entry' : Entry}
    {accepted : List Acceptance} {a : Arrival} {o : Outcome} (h : Kept age pruneNow entry accepted)
    (hstep : Entry.step now entry a = .ok (entry', o)) :
    Recorded age entry' (if ¬ Rejection o.errorCode then ⟨pruneNow, now⟩ :: accepted
      else accepted) ∧
      (if ¬ Rejection o.errorCode then ⟨pruneNow, now⟩ :: accepted else accepted).IsChain
        (Within age) := by
  by_cases hcode : Rejection o.errorCode
  · rw [if_neg (not_not.mpr hcode)]
    refine ⟨fun q hq => ⟨h.chain, fun x hx => ?_⟩, h.chain⟩
    rw [Entry.eq_rejected_of_step hstep hcode] at hq
    rcases hentry : entry with _ | p
    · rw [h.eq_nil hentry] at hx
      cases hx
    · rw [lastAccess_rejected hentry hq]
      exact (h.recorded p hentry).2 x hx
  · rw [if_pos hcode]
    have hchain : (⟨pruneNow, now⟩ :: accepted).IsChain (Within age) :=
      List.isChain_cons.mpr ⟨h.within, h.chain⟩
    refine ⟨fun q hq => ⟨hchain, fun x hx => ?_⟩, hchain⟩
    cases hx
    rw [hq] at hstep
    exact Entry.lastAccess_of_step hstep hcode

theorem arrivalAt_fst {r : Receipt E} {x : TimePoint × Arrival}
    (h : arrivalAt host settings key r = some x) : x.1 = r.env.now := by
  unfold arrivalAt at h
  split at h
  · split_ifs at h
    cases h
    rfl
  · cases h

/-- A call keeps the record of a package without gaps. -/
theorem watch_recorded {s s' : Reassembly E × List Acceptance} {r : Receipt E}
    {o : Outcome × List Acceptance} (h : Recorded settings.maxReassemblyAge s.1[key]? s.2)
    (hstep : watch host settings key s r = .ok (s', o)) :
    Recorded settings.maxReassemblyAge s'.1[key]? s'.2 ∧
      o.2.IsChain (Within settings.maxReassemblyAge) := by
  obtain ⟨x, hx, hxo⟩ := Machine.map_eq_ok.mp hstep
  cases hxo
  have hkept := h.kept r.pruneNow
  have hvisit := visit_of_step key hx
  rw [getElem?_removeOldPackages]
  unfold Entry.visit concerns at hvisit
  unfold concerns
  rcases harr : arrivalAt host settings key r with _ | ⟨now, a⟩
  · rw [harr] at hvisit
    simp only [Except.ok.injEq, Prod.mk.injEq] at hvisit
    rw [if_neg (by simp), ← hvisit.1]
    exact ⟨hkept.recorded, hkept.chain⟩
  · obtain rfl : now = r.env.now := arrivalAt_fst harr
    rw [harr] at hvisit
    obtain ⟨y, hy, hyo⟩ := Machine.map_eq_ok.mp hvisit
    simp only [Option.isSome_some, if_true, Prod.mk.injEq, Option.some.injEq] at hyo
    obtain ⟨hentry, ho⟩ := hyo
    have hcalled : Entry.step r.env.now (Entry.prune (limit settings r) s.1[key]?) a =
        .ok (x.1[key]?, x.2) := by
      rw [← hentry, ← ho]
      exact hy
    simp only [Option.isSome_some, true_and]
    exact hkept.step hcalled

theorem watch_eq (host : ByteOrder) (settings : SocketSettings) (key : FragmentedPackageKey E)
    (s : Reassembly E × List Acceptance) (r : Receipt E) :
    (watch host settings key s r).map (fun x => (x.1.1, x.2.1)) = step host settings s.1 r := by
  unfold watch
  cases step host settings s.1 r <;> rfl

/-- The calls of a run with a record return what they return without. -/
theorem run_watch (s : Reassembly E × List Acceptance) (receipts : List (Receipt E)) :
    (Machine.run (watch host settings key) s receipts).1.map Prod.fst =
      (Machine.run (step host settings) s.1 receipts).1 := by
  induction receipts generalizing s with
  | nil => rfl
  | cons r receipts ih =>
    have heq := watch_eq host settings key s r
    rcases hr : watch host settings key s r with e | ⟨s', o⟩
    · rw [hr] at heq
      rw [Machine.run_cons_error hr, Machine.run_cons_error heq.symm]
      rfl
    · rw [hr] at heq
      rw [Machine.run_cons_ok hr, Machine.run_cons_ok heq.symm, List.map_cons, ih]

theorem run_watch_isChain (host : ByteOrder) (settings : SocketSettings)
    (key : FragmentedPackageKey E) (receipts : List (Receipt E)) :
    ∀ o ∈ (Machine.run (watch host settings key) (∅, []) receipts).1,
      o.2.IsChain (Within settings.maxReassemblyAge) := by
  refine Machine.forall_mem_run (I := fun s => Recorded settings.maxReassemblyAge s.1[key]? s.2)
    (fun s r _ s' o hs hstep => watch_recorded hs hstep) ?_
  intro p hp
  rw [Std.ExtTreeMap.getElem?_empty] at hp
  cases hp

/-! ## The parts of one message -/

/-- The call hands in the datagram of a part. -/
def HandsInPart (settings : SocketSettings) (key : FragmentedPackageKey E) (m : Message)
    (r : Receipt E) (part : Part) : Prop :=
  r.senderEndpoint = key.endpoint ∧
    r.buffer.bytes = m.encode settings.magicHeaderBytes key.id part

/-- The entry is visited as the collector is: pruned by the same limit, and handed the arrival of
the part that is offered. -/
def IsVisit (m : Message) (x : TimePoint × Option (TimePoint × Arrival))
    (v : TimePoint × Option (TimePoint × Part)) : Prop :=
  x.1 = v.1 ∧ Option.Rel m.IsPart x.2 v.2

/-- A run of visits to an entry is a run of visits to the collector of the message. -/
theorem run_visits {m : Message} {xs : List (TimePoint × Option (TimePoint × Arrival))}
    {vs : List (TimePoint × Option (TimePoint × Part))} (hxs : List.Forall₂ (IsVisit m) xs vs)
    {s : Collect.State Part TimePoint} {entry : Entry} (h : m.Represents s entry) :
    (Machine.run Entry.visit entry xs).1 =
      (Collect.visits m.parts s vs).1.map (Option.map m.outcome) := by
  induction hxs generalizing s entry with
  | nil => rfl
  | @cons x v xs vs hx _ ih =>
    obtain ⟨limit, x⟩ := x
    obtain ⟨limit', v⟩ := v
    obtain ⟨rfl, hrel⟩ := hx
    have hprune := h.prune limit
    cases hrel with
    | none =>
      rw [Machine.run_cons_ok (show Entry.visit entry (limit, none) = _ from rfl), ih hprune]
      rfl
    | @some x v hpart =>
      obtain ⟨now, a⟩ := x
      obtain ⟨now', part⟩ := v
      obtain ⟨rfl, hpart, hreads⟩ := hpart
      obtain ⟨entry', hstep, hentry'⟩ := Message.step_of_reads hprune hpart hreads now
      rw [Machine.run_cons_ok (show Entry.visit entry (limit, some (now, a)) = _ from
        Entry.handle_of_step hstep), ih hentry']
      rfl

theorem exists_visits {m : Message} {receipts : List (Receipt E)} {parts : List Part}
    (hparts : List.Forall₂ (HandsInPart settings key m)
      (receipts.filter (concerns host settings key)) parts)
    (hmem : ∀ part ∈ parts, part ∈ m.parts) :
    ∃ vs : List (TimePoint × Option (TimePoint × Part)),
      List.Forall₂ (IsVisit m)
        (receipts.map fun r => (limit settings r, arrivalAt host settings key r)) vs ∧
      vs.map Prod.fst = receipts.map (limit settings) ∧
      (Collect.offered vs).map (fun x => (x.1, x.2.1)) =
        (receipts.filter (concerns host settings key)).map
          (fun r => (limit settings r, r.env.now)) ∧
      (Collect.offered vs).map (fun x => x.2.2) = parts := by
  induction receipts generalizing parts with
  | nil =>
    cases hparts
    exact ⟨[], .nil, rfl, rfl, rfl⟩
  | cons r receipts ih =>
    cases hconcerns : concerns host settings key r with
    | true =>
      rw [List.filter_cons_of_pos hconcerns] at hparts ⊢
      cases hparts with
      | @cons _ part _ parts hpart hparts =>
        obtain ⟨vs, hvisits, hlimits, htimes, hoffered⟩ := ih hparts
          fun part hp => hmem part (List.mem_cons_of_mem _ hp)
        obtain ⟨hsender, hbytes⟩ := hpart
        obtain ⟨a, harr, hreads⟩ := Message.arrivalOf_encode host hbytes
        have harrival : arrivalAt host settings key r = some (r.env.now, a) := by
          unfold concerns at hconcerns
          unfold arrivalAt arrivalOf at hconcerns ⊢
          split_ifs at hconcerns ⊢ with hpasses
          · rw [harr]
            simp only [hsender, if_true]
          · cases hconcerns
        refine ⟨(limit settings r, some (r.env.now, part)) :: vs, ?_, ?_, ?_, ?_⟩
        · rw [List.map_cons, harrival]
          exact .cons ⟨rfl, .some ⟨rfl, hmem part List.mem_cons_self, hreads⟩⟩ hvisits
        · rw [List.map_cons, List.map_cons, hlimits]
        · rw [Collect.offered_cons_some, List.map_cons, List.map_cons, htimes]
        · rw [Collect.offered_cons_some, List.map_cons, hoffered]
    | false =>
      rw [List.filter_cons_of_neg (by simp [hconcerns])] at hparts ⊢
      obtain ⟨vs, hvisits, hlimits, htimes, hoffered⟩ := ih hparts hmem
      have harrival : arrivalAt host settings key r = none :=
        Option.not_isSome_iff_eq_none.mp (by rw [← concerns, hconcerns]; exact Bool.false_ne_true)
      refine ⟨(limit settings r, none) :: vs, ?_, ?_, htimes, hoffered⟩
      · rw [List.map_cons, harrival]
        exact .cons ⟨rfl, .none⟩ hvisits
      · rw [List.map_cons, List.map_cons, hlimits]

omit [LinearOrder E] in
theorem onTime_iff_isChain {receipts : List (Receipt E)} {stamp : TimePoint}
    {vs : List (TimePoint × Option (TimePoint × Part))}
    (htimes : (Collect.offered vs).map (fun x => (x.1, x.2.1)) =
      receipts.map (fun r => (limit settings r, r.env.now))) :
    Collect.OnTime ⟨∅, stamp⟩ vs ↔ receipts.IsChain
      (fun earlier later => later.pruneNow - earlier.env.now ≤ settings.maxReassemblyAge) := by
  have hchain := List.isChain_map (R := fun x y : TimePoint × TimePoint => y.1 ≤ x.2)
    (fun x : TimePoint × TimePoint × Part => (x.1, x.2.1)) (l := Collect.offered vs)
  rw [Collect.onTime_empty, ← hchain, htimes, List.isChain_map]
  apply List.IsChain.iff
  intro earlier later
  exact sub_le_comm

/-- A message within its timeout: the parts of a message are handled once each, in any order and
among any other calls. If each comes within the maximum age of the one before, the last one gives
the message; otherwise none does. -/
theorem run_of_parts_once {m : Message} {receipts : List (Receipt E)} {parts : List Part}
    (hkey : packages[key]? = none)
    (hparts : List.Forall₂ (HandsInPart settings key m)
      (receipts.filter (concerns host settings key)) parts)
    (hperm : parts.Perm m.partList) (hclock : (receipts.map Receipt.pruneNow).Pairwise (· ≤ ·))
    (hrun : (Machine.run (step host settings) packages receipts).2 = .ok packages') :
    ((receipts.filter (concerns host settings key)).IsChain
        (fun earlier later => later.pruneNow - earlier.env.now ≤ settings.maxReassemblyAge) →
      Machine.outputsAt (concerns host settings key) receipts
          (Machine.run (step host settings) packages receipts).1 =
        List.replicate m.chunks.length ⟨none, .ok⟩ ++ [⟨some m.chunks.flatten, .ok⟩]) ∧
    (¬ (receipts.filter (concerns host settings key)).IsChain
        (fun earlier later => later.pruneNow - earlier.env.now ≤ settings.maxReassemblyAge) →
      ∀ o ∈ Machine.outputsAt (concerns host settings key) receipts
          (Machine.run (step host settings) packages receipts).1, o.message = none) := by
  obtain ⟨vs, hvisits, hlimits, htimes, hoffered⟩ :=
    exists_visits hparts fun _ => (Message.mem_iff_of_perm hperm).mp
  have hstep : ∀ (packages : Reassembly E) (entry : Entry) (r : Receipt E) packages' o,
      packages[key]? = entry → step host settings packages r = .ok (packages', o) →
        ∃ entry', Entry.visit entry (limit settings r, arrivalAt host settings key r) =
          .ok (entry', if concerns host settings key r then some o else none) ∧
            packages'[key]? = entry' := by
    rintro packages entry r packages' o rfl hcall
    exact ⟨_, visit_of_step key hcall, rfl⟩
  obtain ⟨-, hshadow⟩ := Machine.run_shadow
    (R := fun (packages : Reassembly E) (entry : Entry) => packages[key]? = entry)
    (f := fun r => (limit settings r, arrivalAt host settings key r)) hstep hkey hrun
  have hinit : m.Represents ⟨∅, 0⟩ none := rfl
  rw [← hshadow, run_visits hvisits hinit, List.reduceOption_map]
  -- the parts are offered once each
  have honce : Collect.Once m.parts ⟨∅, (0 : TimePoint)⟩ vs := by
    rw [← Message.toFinset_of_perm hperm, ← hoffered]
    apply Collect.once_empty
    rw [hoffered]
    exact Message.nodup_of_perm hperm
  have hlength : (Collect.offered vs).length = m.chunks.length + 1 := by
    rw [← m.length_partList, ← hperm.length_eq, ← hoffered, List.length_map]
  have htime : Collect.OnTime ⟨∅, (0 : TimePoint)⟩ vs ↔ _ := onTime_iff_isChain htimes
  rw [← htime]
  constructor
  · intro hontime
    have hsorted : (vs.map Prod.fst).Pairwise (· ≤ ·) := by
      rw [hlimits, List.pairwise_map]
      rw [List.pairwise_map] at hclock
      exact hclock.imp fun h => sub_le_sub_right h _
    have hne : Collect.offered vs ≠ [] := by
      intro hnil
      rw [hnil] at hlength
      cases hlength
    rw [Collect.visits_of_onTime honce hne hsorted hontime, hlength, Nat.add_sub_cancel,
      List.map_append, List.map_replicate]
    rfl
  · intro hlate o ho
    have hcomplete := Collect.visits_of_not_onTime honce hlate
    obtain ⟨reply, hreply, rfl⟩ := List.mem_map.mp ho
    cases reply with
    | duplicate => rfl
    | pending => rfl
    | complete => exact absurd hreply hcomplete

/-- The timeout is exact. In every run the accepted datagrams of a stored package follow each other
within the maximum age, whatever was rejected in between; and the parts of a message that are
handled once each give it with the last of them if they follow each other so, and never
otherwise. -/
theorem timeout_exact (host : ByteOrder) (settings : SocketSettings)
    (key : FragmentedPackageKey E) :
    (∀ receipts : List (Receipt E),
      (Machine.run (watch host settings key) (∅, []) receipts).1.map Prod.fst =
          (Machine.run (step host settings) ∅ receipts).1 ∧
        ∀ o ∈ (Machine.run (watch host settings key) (∅, []) receipts).1,
          o.2.IsChain (Within settings.maxReassemblyAge)) ∧
    ∀ (m : Message) (receipts : List (Receipt E)) (parts : List Part)
      (packages packages' : Reassembly E), packages[key]? = none →
      List.Forall₂ (HandsInPart settings key m)
        (receipts.filter (concerns host settings key)) parts →
      parts.Perm m.partList →
      (receipts.map Receipt.pruneNow).Pairwise (· ≤ ·) →
      (Machine.run (step host settings) packages receipts).2 = .ok packages' →
      ((receipts.filter (concerns host settings key)).IsChain
          (fun earlier later => later.pruneNow - earlier.env.now ≤ settings.maxReassemblyAge) →
        Machine.outputsAt (concerns host settings key) receipts
            (Machine.run (step host settings) packages receipts).1 =
          List.replicate m.chunks.length ⟨none, .ok⟩ ++ [⟨some m.chunks.flatten, .ok⟩]) ∧
      (¬ (receipts.filter (concerns host settings key)).IsChain
          (fun earlier later => later.pruneNow - earlier.env.now ≤ settings.maxReassemblyAge) →
        ∀ o ∈ Machine.outputsAt (concerns host settings key) receipts
            (Machine.run (step host settings) packages receipts).1, o.message = none) := by
  constructor
  · intro receipts
    exact ⟨run_watch _ receipts, run_watch_isChain host settings key receipts⟩
  · intro m receipts parts packages packages' hkey hparts hperm hclock hrun
    exact run_of_parts_once hkey hparts hperm hclock hrun

/-- A message of two bytes. -/
def shortMessage : Message := ⟨[[1, 2]], by decide, by decide⟩

/-- A receipt of a part of this message, with id 7, from the given sender. -/
def shortReceipt (part : Part) (senderEndpoint : ℕ) (now : TimePoint) : Receipt ℕ where
  pruneNow := now
  env := ⟨now, .empty, fun _ => 0⟩
  buffer := .ofBytes (shortMessage.encode Header.zero.magic 7 part)
  senderEndpoint := senderEndpoint
  error := ⟨.genericError, ""⟩

theorem timeout_two_parts :
    Machine.outputsAt (concerns .littleEndian ⟨Header.zero.magic, 5⟩ ⟨0, 7⟩)
        [shortReceipt .info 0 10, shortReceipt .info 1 12, shortReceipt (.chunk 0) 0 15]
        (Machine.run (step .littleEndian ⟨Header.zero.magic, 5⟩) ∅
          [shortReceipt .info 0 10, shortReceipt .info 1 12, shortReceipt (.chunk 0) 0 15]).1 =
      [⟨none, .ok⟩, ⟨some [1, 2], .ok⟩] := by
  have hexact := timeout_exact .littleEndian ⟨Header.zero.magic, 5⟩
    (⟨0, 7⟩ : FragmentedPackageKey ℕ)
  refine (hexact.2 shortMessage _ [.info, .chunk 0] ∅ _ Std.ExtTreeMap.getElem?_empty ?_ (.refl _)
    (by decide) rfl).1 (by decide)
  exact .cons ⟨rfl, RawMemory.bytes_ofBytes _⟩ (.cons ⟨rfl, RawMemory.bytes_ofBytes _⟩ .nil)

end Socket

end Ecaludp
