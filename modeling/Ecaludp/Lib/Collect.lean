import Mathlib

/-!
# Collecting a finite set

A collector is offered elements of a finite set `whole` one by one. It refuses those it has,
keeps the others, and when it has them all it reports that it is complete and starts again with
nothing. Every accepted offer is stamped; an expiry empties a collector whose last stamp is too
old.
-/

namespace Collect

variable {α τ : Type*} [DecidableEq α]

/-- The elements that a collector has, and the stamp of the last one that it accepted. -/
structure State (α τ : Type*) where
  got : Finset α
  stamp : τ

/-- The answer to an offer. -/
inductive Reply where
  | duplicate
  | pending
  | complete
  deriving DecidableEq

/-- Offer the element `a` at the time `now`. -/
def offer (whole : Finset α) (now : τ) (s : State α τ) (a : α) : State α τ × Reply :=
  if a ∈ s.got then (s, .duplicate)
  else if insert a s.got = whole then (⟨∅, now⟩, .complete)
  else (⟨insert a s.got, now⟩, .pending)

/-- Empty a collector whose last stamp is before `limit`. -/
def expire [LT τ] [DecidableRel (α := τ) (· < ·)] (limit : τ) (s : State α τ) : State α τ :=
  if s.stamp < limit then ⟨∅, s.stamp⟩ else s

variable {whole : Finset α} {now : τ} {s : State α τ} {a : α}

theorem offer_of_mem (h : a ∈ s.got) : offer whole now s a = (s, .duplicate) := if_pos h

theorem offer_of_complete (h : a ∉ s.got) (hwhole : insert a s.got = whole) :
    offer whole now s a = (⟨∅, now⟩, .complete) := by
  rw [offer, if_neg h, if_pos hwhole]

theorem offer_of_pending (h : a ∉ s.got) (hwhole : insert a s.got ≠ whole) :
    offer whole now s a = (⟨insert a s.got, now⟩, .pending) := by
  rw [offer, if_neg h, if_neg hwhole]

/-- Offer the elements of a list at their times. -/
def offers (whole : Finset α) : State α τ → List (τ × α) → List Reply × State α τ
  | s, [] => ([], s)
  | s, (now, a) :: l =>
    let r := offer whole now s a
    let rs := offers whole r.1 l
    (r.2 :: rs.1, rs.2)

theorem offers_cons {r : State α τ × Reply} (h : offer whole now s a = r) (l : List (τ × α)) :
    offers whole s ((now, a) :: l) = (r.2 :: (offers whole r.1 l).1, (offers whole r.1 l).2) := by
  rw [offers, h]

/-- Every order completes: elements that are all new and make up what is missing are accepted one by
one, and the last one completes the set. -/
theorem offers_of_perm {l : List (τ × α)} {x : τ × α} {s : State α τ}
    (hnodup : ((l ++ [x]).map Prod.snd).Nodup)
    (hnew : ∀ a ∈ (l ++ [x]).map Prod.snd, a ∉ s.got)
    (hwhole : s.got ∪ ((l ++ [x]).map Prod.snd).toFinset = whole) :
    offers whole s (l ++ [x]) = (List.replicate l.length .pending ++ [.complete], ⟨∅, x.1⟩) := by
  induction l generalizing s with
  | nil =>
    obtain ⟨now, a⟩ := x
    have hins : insert a s.got = whole := by
      rw [← hwhole]
      ext b
      simp
    rw [List.nil_append, offers_cons (offer_of_complete (hnew a (by simp)) hins)]
    rfl
  | cons y l ih =>
    obtain ⟨now, a⟩ := y
    rw [List.cons_append, List.map_cons] at hnodup hnew hwhole
    obtain ⟨hnotin, hnodup⟩ := List.nodup_cons.mp hnodup
    have hpending : insert a s.got ≠ whole := by
      intro h
      have hx : x.2 ∈ whole := by
        rw [← hwhole]
        simp
      rw [← h, Finset.mem_insert] at hx
      rcases hx with rfl | hx
      · exact hnotin (by simp)
      · exact hnew x.2 (by simp) hx
    have hrec := ih (s := ⟨insert a s.got, now⟩) hnodup ?_ ?_
    · rw [List.cons_append, offers_cons (offer_of_pending (hnew a (by simp)) hpending), hrec]
      rfl
    · intro b hb hmem
      rcases Finset.mem_insert.mp hmem with rfl | hmem
      · exact hnotin hb
      · exact hnew b (List.mem_cons_of_mem _ hb) hmem
    · rw [← hwhole, List.toFinset_cons]
      ext b
      simp [or_left_comm]

/-! ## Expiry between offers

A visit to a collector is an expiry, possibly followed by an offer. -/

section Visits

variable {τ : Type*} [LinearOrder τ] {now limit : τ} {s : State α τ}
  {vs : List (τ × Option (τ × α))}

theorem expire_eq_self (h : s.got ≠ ∅ → limit ≤ s.stamp) : expire limit s = s := by
  unfold expire
  split_ifs with hlt
  · have hgot : s.got = ∅ := by
      by_contra hne
      exact absurd hlt (not_lt.mpr (h hne))
    rw [← hgot]
  · rfl

omit [DecidableEq α] in
theorem expire_of_lt (h : s.stamp < limit) : expire limit s = ⟨∅, s.stamp⟩ := if_pos h

omit [DecidableEq α] in
theorem expire_got_subset (limit : τ) (s : State α τ) : (expire limit s).got ⊆ s.got := by
  unfold expire
  split_ifs
  · exact Finset.empty_subset _
  · exact Finset.Subset.refl _

/-- A visit with the limit of the expiry and, possibly, an element offered at a time. -/
def visit (whole : Finset α) (s : State α τ) (v : τ × Option (τ × α)) :
    State α τ × Option Reply :=
  match v.2 with
  | none => (expire v.1 s, none)
  | some x => ((offer whole x.1 (expire v.1 s) x.2).1, some (offer whole x.1 (expire v.1 s) x.2).2)

def visits (whole : Finset α) :
    State α τ → List (τ × Option (τ × α)) → List (Option Reply) × State α τ
  | s, [] => ([], s)
  | s, v :: vs =>
    let r := visit whole s v
    let rs := visits whole r.1 vs
    (r.2 :: rs.1, rs.2)

/-- The offers among visits, each with the limit of its visit. -/
def offered (vs : List (τ × Option (τ × α))) : List (τ × τ × α) :=
  vs.filterMap fun v => v.2.map fun x => (v.1, x)

omit [DecidableEq α] [LinearOrder τ] in
theorem offered_cons_none (limit : τ) (vs : List (τ × Option (τ × α))) :
    offered ((limit, none) :: vs) = offered vs := rfl

omit [DecidableEq α] [LinearOrder τ] in
theorem offered_cons_some (limit : τ) (x : τ × α) (vs : List (τ × Option (τ × α))) :
    offered ((limit, some x) :: vs) = (limit, x) :: offered vs := rfl

theorem visits_cons_none (limit : τ) (vs : List (τ × Option (τ × α))) :
    (visits whole s ((limit, none) :: vs)).1.reduceOption =
      (visits whole (expire limit s) vs).1.reduceOption := by
  rw [visits, visit, List.reduceOption_cons_of_none]

theorem visits_cons_some (limit : τ) (x : τ × α) (vs : List (τ × Option (τ × α))) :
    (visits whole s ((limit, some x) :: vs)).1.reduceOption =
      (offer whole x.1 (expire limit s) x.2).2 ::
        (visits whole (offer whole x.1 (expire limit s) x.2).1 vs).1.reduceOption := by
  rw [visits, visit, List.reduceOption_cons_of_some]

/-- Every offer comes in time: with a limit that is at most the time of the offer before. -/
def OnTime (s : State α τ) (vs : List (τ × Option (τ × α))) : Prop :=
  (offered vs).IsChain (fun x y => y.1 ≤ x.2.1) ∧
    (s.got ≠ ∅ → ∀ x ∈ (offered vs).head?, x.1 ≤ s.stamp)

omit [DecidableEq α] in
theorem onTime_empty {stamp : τ} :
    OnTime (⟨∅, stamp⟩ : State α τ) vs ↔ (offered vs).IsChain fun x y => y.1 ≤ x.2.1 :=
  and_iff_left fun h => absurd rfl h

theorem visits_of_offered_nil (h : offered vs = []) (s : State α τ) :
    (visits whole s vs).1.reduceOption = [] := by
  induction vs generalizing s with
  | nil => rfl
  | cons v vs ih =>
    obtain ⟨limit, _ | x⟩ := v
    · rw [visits_cons_none]
      exact ih h _
    · cases h

theorem complete_notMem_visits {z : α} (hz : z ∈ whole) (hgot : z ∉ s.got)
    (hvs : ∀ x ∈ offered vs, x.2.2 ≠ z) :
    Reply.complete ∉ (visits whole s vs).1.reduceOption := by
  induction vs generalizing s with
  | nil => exact List.not_mem_nil
  | cons v vs ih =>
    obtain ⟨limit, _ | ⟨now, a⟩⟩ := v
    · rw [visits_cons_none]
      exact ih (fun hmem => hgot (expire_got_subset _ _ hmem)) hvs
    · rw [offered_cons_some] at hvs
      have hne : a ≠ z := hvs _ List.mem_cons_self
      have hmissing : z ∉ insert a (expire limit s).got := by
        rw [Finset.mem_insert, not_or]
        exact ⟨Ne.symm hne, fun hmem => hgot (expire_got_subset _ _ hmem)⟩
      have hpart : insert a (expire limit s).got ≠ whole := fun h => hmissing (h ▸ hz)
      have hrest := fun x hx => hvs x (List.mem_cons_of_mem _ hx)
      rw [visits_cons_some, List.mem_cons, not_or]
      by_cases hmem : a ∈ (expire limit s).got
      · rw [offer_of_mem hmem]
        exact ⟨by simp, ih (fun h => hmissing (Finset.mem_insert_of_mem h)) hrest⟩
      · rw [offer_of_pending hmem hpart]
        exact ⟨by simp, ih hmissing hrest⟩

/-- The visits offer every missing element once. -/
structure Once (whole : Finset α) (s : State α τ) (vs : List (τ × Option (τ × α))) : Prop where
  nodup : ((offered vs).map fun x => x.2.2).Nodup
  new : ∀ x ∈ offered vs, x.2.2 ∉ s.got
  whole : s.got ∪ ((offered vs).map fun x => x.2.2).toFinset = whole

section Once

variable {a : α}

omit [LinearOrder τ] in
theorem once_empty {stamp : τ} (hnodup : ((offered vs).map fun x => x.2.2).Nodup) :
    Once ((offered vs).map fun x => x.2.2).toFinset ⟨∅, stamp⟩ vs :=
  ⟨hnodup, fun _ _ => Finset.notMem_empty _, Finset.empty_union _⟩

omit [LinearOrder τ] in
theorem Once.notMem (h : Once whole s ((limit, some (now, a)) :: vs)) : a ∉ s.got :=
  h.new _ List.mem_cons_self

omit [LinearOrder τ] in
theorem Once.next (h : Once whole s ((limit, some (now, a)) :: vs)) :
    Once whole ⟨insert a s.got, now⟩ vs := by
  obtain ⟨hnodup, hnew, hwhole⟩ := h
  rw [offered_cons_some] at hnodup hnew hwhole
  rw [List.map_cons, List.nodup_cons] at hnodup
  refine ⟨hnodup.2, fun x hx => ?_, ?_⟩
  · rw [Finset.mem_insert, not_or]
    refine ⟨fun hxa => ?_, hnew x (List.mem_cons_of_mem _ hx)⟩
    exact hnodup.1 (List.mem_map.mpr ⟨x, hx, hxa⟩)
  · rw [← hwhole, List.map_cons, List.toFinset_cons, Finset.insert_union, Finset.union_insert]

omit [LinearOrder τ] in
theorem Once.complete_iff (h : Once whole s vs) : s.got = whole ↔ offered vs = [] := by
  rw [← h.whole]
  constructor
  · intro hgot
    rw [List.eq_nil_iff_forall_not_mem]
    intro x hx
    apply h.new x hx
    rw [hgot]
    exact Finset.mem_union_right _ (List.mem_toFinset.mpr (List.mem_map.mpr ⟨x, hx, rfl⟩))
  · intro hnil
    rw [hnil, List.map_nil, List.toFinset_nil, Finset.union_empty]

/-- In time: elements that are offered once each, and in time, complete the collector with the last
of them. -/
theorem visits_of_onTime (h : Once whole s vs) (hne : offered vs ≠ [])
    (hsorted : (vs.map Prod.fst).Pairwise (· ≤ ·)) (htime : OnTime s vs) :
    (visits whole s vs).1.reduceOption =
      List.replicate ((offered vs).length - 1) .pending ++ [.complete] := by
  induction vs generalizing s with
  | nil => exact absurd rfl hne
  | cons v vs ih =>
    rw [List.map_cons, List.pairwise_cons] at hsorted
    obtain ⟨hleast, hsorted⟩ := hsorted
    obtain ⟨limit, _ | ⟨now, a⟩⟩ := v
    · have hself : expire limit s = s := by
        apply expire_eq_self
        intro hgot
        obtain ⟨x, xs, hx⟩ := List.exists_cons_of_ne_nil hne
        have hstamp := htime.2 hgot x (by rw [hx]; rfl)
        -- the next offer comes with a later limit
        have hmem : x ∈ offered vs := by
          rw [offered_cons_none] at hx
          rw [hx]
          exact List.mem_cons_self
        obtain ⟨v, hv, hvx⟩ := List.mem_filterMap.mp hmem
        obtain ⟨y, -, rfl⟩ := Option.map_eq_some_iff.mp hvx
        exact le_trans (hleast _ (List.mem_map_of_mem hv)) hstamp
      rw [visits_cons_none, hself]
      exact ih ⟨h.nodup, h.new, h.whole⟩ hne hsorted htime
    · have hself : expire limit s = s := expire_eq_self fun hgot => htime.2 hgot _ rfl
      rw [visits_cons_some, hself]
      by_cases hlast : offered vs = []
      · rw [offer_of_complete h.notMem (h.next.complete_iff.mpr hlast),
          visits_of_offered_nil hlast, offered_cons_some, hlast]
        rfl
      · obtain ⟨x, xs, hx⟩ := List.exists_cons_of_ne_nil hlast
        have htime' : OnTime ⟨insert a s.got, now⟩ vs := by
          have hchain := htime.1
          rw [offered_cons_some, hx, List.isChain_cons_cons, ← hx] at hchain
          refine ⟨hchain.2, fun _ y hy => ?_⟩
          rw [hx] at hy
          cases hy
          exact hchain.1
        rw [offer_of_pending h.notMem (h.next.complete_iff.not.mpr hlast),
          ih h.next hlast hsorted htime', offered_cons_some, hx]
        rfl

/-- Too late: if one of the offers does not come in time, the collector is never complete. -/
theorem visits_of_not_onTime (h : Once whole s vs) (htime : ¬ OnTime s vs) :
    Reply.complete ∉ (visits whole s vs).1.reduceOption := by
  induction vs generalizing s with
  | nil =>
    refine absurd ⟨List.isChain_nil, fun _ x hx => ?_⟩ htime
    cases hx
  | cons v vs ih =>
    by_cases hexp : s.got ≠ ∅ ∧ s.stamp < v.1
    · -- what the expiry throws away is never offered again
      obtain ⟨z, hz⟩ := Finset.nonempty_iff_ne_empty.mpr hexp.1
      have hzwhole : z ∈ whole := by
        rw [← h.whole]
        exact Finset.mem_union_left _ hz
      have hexpire : expire v.1 ⟨∅, s.stamp⟩ = (⟨∅, s.stamp⟩ : State α τ) :=
        expire_eq_self fun h => absurd rfl h
      have hvisits : visits whole s (v :: vs) = visits whole ⟨∅, s.stamp⟩ (v :: vs) := by
        rw [visits, visits, visit, visit, expire_of_lt hexp.2, hexpire]
      rw [hvisits]
      refine complete_notMem_visits hzwhole (Finset.notMem_empty z) ?_
      rintro x hx rfl
      exact h.new x hx hz
    · have hkeep : s.got ≠ ∅ → v.1 ≤ s.stamp := fun hgot => not_lt.mp fun hlt => hexp ⟨hgot, hlt⟩
      obtain ⟨limit, _ | ⟨now, a⟩⟩ := v
      · rw [visits_cons_none, expire_eq_self hkeep]
        exact ih ⟨h.nodup, h.new, h.whole⟩ htime
      · -- the late offer is among those to come
        have hlate : ¬ OnTime ⟨insert a s.got, now⟩ vs := by
          intro hrest
          refine htime ⟨?_, fun hgot x hx => ?_⟩
          · rw [offered_cons_some]
            exact List.isChain_cons.mpr ⟨hrest.2 (Finset.insert_ne_empty _ _), hrest.1⟩
          · cases hx
            exact hkeep hgot
        have hpending : insert a s.got ≠ whole := by
          intro hins
          have hnil := h.next.complete_iff.mp hins
          refine hlate ⟨?_, fun _ x hx => ?_⟩
          · rw [hnil]
            exact List.isChain_nil
          · rw [hnil] at hx
            cases hx
        rw [visits_cons_some, expire_eq_self hkeep,
          offer_of_pending h.notMem hpending, List.mem_cons, not_or]
        exact ⟨by simp, ih h.next hlate⟩

end Once

/-- At most as often as anything was offered: every element was offered for each time that the
collector was complete, and once more if it is there in the end, unless it was there to begin
with. -/
theorem count_complete_le {a : α} (ha : a ∈ whole) (s : State α τ)
    (vs : List (τ × Option (τ × α))) :
    (visits whole s vs).1.reduceOption.count .complete +
        (if a ∈ (visits whole s vs).2.got then 1 else 0) ≤
      ((offered vs).map fun x => x.2.2).count a + if a ∈ s.got then 1 else 0 := by
  induction vs generalizing s with
  | nil => exact Nat.le_refl _
  | cons v vs ih =>
    have hkeep (limit : τ) :
        (if a ∈ (expire limit s).got then 1 else 0) ≤ if a ∈ s.got then 1 else 0 := by
      by_cases hmem : a ∈ (expire limit s).got
      · rw [if_pos hmem, if_pos (expire_got_subset _ _ hmem)]
      · rw [if_neg hmem]
        exact Nat.zero_le _
    obtain ⟨limit, _ | ⟨now, b⟩⟩ := v
    · rw [visits_cons_none, offered_cons_none]
      exact (ih _).trans (Nat.add_le_add_left (hkeep limit) _)
    · have hkept := hkeep limit
      have hrec := ih (offer whole now (expire limit s) b).1
      have hend : (visits whole s ((limit, some (now, b)) :: vs)).2 =
          (visits whole (offer whole now (expire limit s) b).1 vs).2 := rfl
      rw [visits_cons_some, offered_cons_some, List.map_cons, List.count_cons,
        List.count_cons, hend]
      by_cases hmem : b ∈ (expire limit s).got
      · rw [offer_of_mem hmem] at hrec ⊢
        rw [if_neg (by simp)]
        simp only at hrec ⊢
        omega
      · by_cases hwhole : insert b (expire limit s).got = whole
        · -- a completed collector had `a`, or gets it now
          have hgot : a ∈ insert b (expire limit s).got := hwhole ▸ ha
          rw [offer_of_complete hmem hwhole] at hrec ⊢
          rw [if_neg (Finset.notMem_empty a)] at hrec
          rw [if_pos (by simp)]
          simp only at hrec ⊢
          rcases Finset.mem_insert.mp hgot with rfl | hgot
          · rw [if_pos (beq_self_eq_true a)]
            omega
          · rw [if_pos hgot] at hkept
            omega
        · have hgot : (if a ∈ insert b (expire limit s).got then 1 else 0) ≤
              (if (b == a) = true then 1 else 0) + if a ∈ (expire limit s).got then 1 else 0 := by
            by_cases hba : b = a
            · subst hba
              simp
            · have hne : a ≠ b := Ne.symm hba
              simp [hba, hne]
          rw [offer_of_pending hmem hwhole] at hrec ⊢
          rw [if_neg (by simp)]
          simp only at hrec ⊢
          omega

end Visits

end Collect
