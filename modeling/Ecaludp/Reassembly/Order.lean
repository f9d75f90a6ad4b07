import Ecaludp.Reassembly.Package

/-!
# The order of fragments and info

All datagrams here are of one key: fragments with pairwise different numbers, and one info that
announces `num` fragments of `len` bytes in total. Some fragment numbers may be out of range. An
out-of-range fragment is rejected when it comes after the info. Before the info it is stored, and
the info then cuts it off but leaves it counted, so that the message is never delivered
(`deliveries_eq`). Orders therefore agree unless the message is whole and out-of-range fragments
overtake the info in one order only (`deliveries_eq_iff`).
-/

namespace Ecaludp

open ByteOrder Reassembly EntryMap

/-- The first `num` fragments one after the other. -/
def assembled (num : ℕ) (f : ℕ → Option (List UInt8)) : List UInt8 :=
  (List.range num).flatMap fun i => (f i).getD []

/-- The fragments make up the announced `num` fragments of `len` bytes in total. -/
def Whole (num len : ℕ) (f : ℕ → Option (List UInt8)) : Prop :=
  (∀ i < num, (f i).isSome = true) ∧ (assembled num f).length = len

instance (num len : ℕ) (f : ℕ → Option (List UInt8)) : Decidable (Whole num len f) :=
  inferInstanceAs (Decidable (_ ∧ _))

/-- What is delivered for `num` announced fragments of `len` bytes when fragment `i` is `f i`. -/
def verdict (num len : ℕ) (f : ℕ → Option (List UInt8)) : List (List UInt8) :=
  if Whole num len f then [assembled num f] else []

section Verdict

variable {num len : ℕ} {f g : ℕ → Option (List UInt8)}

theorem assembled_congr (h : ∀ i < num, f i = g i) : assembled num f = assembled num g :=
  List.flatMap_congr fun i hi => by rw [h i (List.mem_range.mp hi)]

theorem whole_congr (h : ∀ i < num, f i = g i) : Whole num len f ↔ Whole num len g := by
  unfold Whole
  rw [assembled_congr h]
  exact and_congr_left' (forall₂_congr fun i hi => by rw [h i hi])

theorem verdict_congr (h : ∀ i < num, f i = g i) : verdict num len f = verdict num len g := by
  unfold verdict
  rw [assembled_congr h, if_congr (whole_congr h) rfl rfl]

theorem verdict_of_missing {i : ℕ} (hi : i < num) (h : f i = none) : verdict num len f = [] := by
  apply if_neg
  intro hwhole
  have := hwhole.1 i hi
  rw [h] at this
  cases this

end Verdict

namespace Entry

variable {entry : Entry} {p : FragmentedPackage} {now : TimePoint} {num len : UInt32}
  {view : OwningBuffer}

/-- The input hands in a fragment with this number and these bytes. -/
def IsFragment (x : TimePoint × Arrival) (f : UInt32 × List UInt8) : Prop :=
  ∃ view, x.2 = .fragment f.1 (some view) ∧ view.bytes = f.2

/-- Fragment `i` of a list of numbered fragments. -/
def partOf (fragments : List (UInt32 × List UInt8)) (i : ℕ) : Option (List UInt8) :=
  fragments.lookup (UInt32.ofNat i)

theorem partOf_cons_of_ne {f : UInt32 × List UInt8} {fs : List (UInt32 × List UInt8)} {i : ℕ}
    (hi : i < 2 ^ 32) (h : i ≠ f.1.toNat) : partOf (f :: fs) i = partOf fs i := by
  have hne : (UInt32.ofNat i == f.1) = false := by
    rw [beq_eq_false_iff_ne]
    intro heq
    rw [← heq, UInt32.toNat_ofNat', Nat.mod_eq_of_lt hi] at h
    exact h rfl
  unfold partOf
  rw [List.lookup_cons, hne]

theorem partOf_cons_self (f : UInt32 × List UInt8) (fs : List (UInt32 × List UInt8)) :
    partOf (f :: fs) f.1.toNat = some f.2 := by
  rw [partOf, UInt32.ofNat_toNat]
  exact List.lookup_cons_self

/-! ## Before an info -/

/-- The entry has no info. -/
structure Unannounced (entry : Entry) : Prop where
  counted : entry.package.Counted
  info : entry.package.info.fragmentInfoReceived = false

theorem unannounced_none : Unannounced none := ⟨FragmentedPackage.counted_default, rfl⟩

/-- A fragment before the info is stored unless it is there already or has the largest number;
nothing is delivered. -/
theorem Unannounced.step_fragment (h : entry.Unannounced) (now : TimePoint) (num : UInt32)
    (view : OwningBuffer) :
    ∃ entry' o, step now entry (.fragment num (some view)) = .ok (entry', o) ∧ o.message = none ∧
      entry'.Unannounced ∧ ∀ i, entry'.package.part i =
        if i = num.toNat ∧ num.toNat + 1 < 2 ^ 32 then
          (entry.package.part i).or (some view.bytes)
        else entry.package.part i := by
  have hlength := h.counted.length_lt
  have hroom := h.counted.withRoom num
  by_cases hnum : num.toNat + 1 < 2 ^ 32
  · have hlt := FragmentedPackage.lt_length_withRoom h.info hnum
    rcases hpart : entry.package.part num.toNat with _ | bytes
    · have hslot : SlotList.get (entry.package.withRoom num).fragments num.toNat = none := by
        rw [FragmentedPackage.get_withRoom, ← FragmentedPackage.part_eq_none, hpart]
      have hcounted := hroom.withFragment hlt hslot now view
      have hnot : ¬ ((entry.package.withRoom num).withFragment now num view).Complete := by
        rintro ⟨hinfo, -⟩
        cases h.info.symm.trans hinfo
      refine ⟨_, _, (step_fragment_of_new hlength hlt hpart).trans
        (finish_of_not_complete hcounted hnot), rfl, ⟨hcounted, h.info⟩, fun i => ?_⟩
      show ((entry.package.withRoom num).withFragment now num view).part i = _
      rw [FragmentedPackage.part_withFragment hlt, FragmentedPackage.part_withRoom]
      by_cases hi : i = num.toNat
      · subst hi
        rw [if_pos rfl, if_pos ⟨rfl, hnum⟩, hpart]
        rfl
      · rw [if_neg hi, if_neg fun h => hi h.1]
    · refine ⟨_, _, step_fragment_of_isSome hlength hlt (by rw [hpart]; rfl), rfl,
        ⟨hroom, h.info⟩, fun i => ?_⟩
      show (entry.package.withRoom num).part i = _
      rw [FragmentedPackage.part_withRoom]
      split_ifs with hi
      · rw [hi.1, hpart]
        rfl
      · rfl
  · have hle : (entry.package.withRoom num).fragments.length ≤ num.toNat := by
      have := FragmentedPackage.length_withRoom_lt hlength num
      omega
    refine ⟨_, _, step_fragment_of_le hlength hle, rfl, ⟨hroom, h.info⟩, fun i => ?_⟩
    rw [if_neg fun h => hnum h.2]
    exact FragmentedPackage.part_withRoom _ _ _

/-- Fragments before the info deliver nothing, do not fault, and are stored as they come, except for
one with the largest number. -/
theorem Unannounced.run {xs : List (TimePoint × Arrival)} {fs : List (UInt32 × List UInt8)}
    (hxs : List.Forall₂ IsFragment xs fs) {entry : Entry} (h : entry.Unannounced) :
    messagesOf (Machine.run handle entry xs).1 = [] ∧
      ∃ entry', (Machine.run handle entry xs).2 = .ok entry' ∧ entry'.Unannounced ∧
        ∀ i, entry'.package.part i =
          if i + 1 < 2 ^ 32 then (entry.package.part i).or (partOf fs i)
          else entry.package.part i := by
  induction hxs generalizing entry with
  | nil =>
    refine ⟨rfl, entry, rfl, h, fun i => ?_⟩
    show _ = if _ then (entry.package.part i).or none else _
    rw [Option.or_none, ite_self]
  | @cons x f xs fs hx hxs ih =>
    obtain ⟨now, a⟩ := x
    obtain ⟨view, rfl, hbytes⟩ := hx
    obtain ⟨entry₁, o, hstep, ho, h₁, hpart₁⟩ := h.step_fragment now f.1 view
    obtain ⟨hnone, entry', hend, h', hpart'⟩ := ih h₁
    rw [Machine.run_cons_ok (handle_of_step hstep)]
    refine ⟨?_, entry', hend, h', fun i => ?_⟩
    · rw [messagesOf_cons_none ho]
      exact hnone
    · rw [hpart', hpart₁, hbytes]
      by_cases hi : i + 1 < 2 ^ 32
      · rw [if_pos hi, if_pos hi]
        by_cases heq : i = f.1.toNat
        · subst heq
          rw [if_pos ⟨rfl, hi⟩, partOf_cons_self, Option.or_assoc]
          rfl
        · rw [if_neg fun h => heq h.1, partOf_cons_of_ne (by omega) heq]
      · rw [if_neg hi, if_neg hi, if_neg]
        rintro ⟨rfl, hlt⟩
        exact hi hlt

/-! ## After an info -/

/-- What the checks deliver right away or after the fragments `fs` when nothing was cut off. -/
theorem messagesOf_of_complete (h : p.Counted) (hcomplete : p.Complete)
    {xs : List (TimePoint × Arrival)} {fs : List (UInt32 × List UInt8)}
    (hxs : List.Forall₂ IsFragment xs fs) {x : TimePoint × Arrival}
    (hstep : step x.1 entry x.2 = finish p) :
    messagesOf (Machine.run handle entry (x :: xs)).1 =
      verdict p.fragments.length p.info.totalSizeBytes.toNat
        fun i => (p.part i).or (partOf fs i) := by
  have hrest := (unannounced_none.run hxs).1
  have hverdict : verdict p.fragments.length p.info.totalSizeBytes.toNat
      (fun i => (p.part i).or (partOf fs i)) =
        verdict p.fragments.length p.info.totalSizeBytes.toNat p.part := by
    apply verdict_congr
    intro i hi
    obtain ⟨bytes, hbytes⟩ := Option.isSome_iff_exists.mp (hcomplete.2 i hi)
    rw [hbytes]
    rfl
  rw [hverdict]
  unfold verdict
  by_cases hsize : p.content.length = p.info.totalSizeBytes.toNat
  · rw [finish_of_complete h hcomplete hsize] at hstep
    rw [Machine.run_cons_ok (handle_of_step hstep), messagesOf_cons, hrest,
      if_pos ⟨hcomplete.2, hsize⟩]
    rfl
  · rw [finish_of_size_ne h hcomplete hsize] at hstep
    rw [Machine.run_cons_ok (handle_of_step hstep), messagesOf_cons, hrest,
      if_neg fun h => hsize h.2]
    rfl

/-- A fragment that has no place, or whose place is taken, adds nothing. -/
theorem or_partOf_of_rejected {f : UInt32 × List UInt8} {fs : List (UInt32 × List UInt8)}
    (h : p.Counted)
    (hrejected : p.fragments.length ≤ f.1.toNat ∨ (p.part f.1.toNat).isSome = true) {i : ℕ}
    (hi : i < p.fragments.length) :
    (p.part i).or (partOf fs i) = (p.part i).or (partOf (f :: fs) i) := by
  by_cases heq : i = f.1.toNat
  · subst heq
    obtain ⟨bytes, hbytes⟩ := Option.isSome_iff_exists.mp (hrejected.resolve_left (by omega))
    rw [hbytes]
    rfl
  · rw [partOf_cons_of_ne (hi.trans h.length_lt) heq]

theorem or_partOf_of_new {f : UInt32 × List UInt8} {fs : List (UInt32 × List UInt8)}
    (h : p.Counted) (hlt : f.1.toNat < p.fragments.length) (hpart : p.part f.1.toNat = none)
    (now : TimePoint) {view : OwningBuffer} (hbytes : view.bytes = f.2) {i : ℕ}
    (hi : i < p.fragments.length) :
    ((p.withFragment now f.1 view).part i).or (partOf fs i) =
      (p.part i).or (partOf (f :: fs) i) := by
  rw [FragmentedPackage.part_withFragment hlt]
  by_cases heq : i = f.1.toNat
  · subst heq
    rw [if_pos rfl, hpart, partOf_cons_self, hbytes]
    rfl
  · rw [if_neg heq, partOf_cons_of_ne (hi.trans h.length_lt) heq]

/-- A counted package that is still incomplete delivers what its own parts and the first fragment of
each missing number make up. -/
theorem messagesOf_run_of_counted {xs : List (TimePoint × Arrival)}
    {fs : List (UInt32 × List UInt8)} (hxs : List.Forall₂ IsFragment xs fs)
    {p : FragmentedPackage} (h : p.Counted) (hinfo : p.info.fragmentInfoReceived = true)
    (hcomplete : ¬ p.Complete) :
    messagesOf (Machine.run handle (some p) xs).1 =
      verdict p.fragments.length p.info.totalSizeBytes.toNat
        fun i => (p.part i).or (partOf fs i) := by
  induction hxs generalizing p with
  | nil =>
    unfold FragmentedPackage.Complete at hcomplete
    push Not at hcomplete
    obtain ⟨i, hi, hpart⟩ := hcomplete hinfo
    refine (verdict_of_missing hi ?_).symm
    rw [Option.not_isSome_iff_eq_none.mp hpart]
    rfl
  | @cons x f xs fs hx hxs ih =>
    obtain ⟨now, a⟩ := x
    obtain ⟨view, rfl, hbytes⟩ := hx
    have hlength : (package (some p)).fragments.length < 2 ^ 32 := h.length_lt
    have hroom : (package (some p)).withRoom f.1 = p := FragmentedPackage.withRoom_of_info hinfo f.1
    -- a rejected fragment changes nothing that the verdict looks at
    have hskip : ∀ code, step now (some p) (.fragment f.1 (some view)) =
        .ok (some ((package (some p)).withRoom f.1), ⟨none, code⟩) →
        p.fragments.length ≤ f.1.toNat ∨ (p.part f.1.toNat).isSome = true →
        messagesOf (Machine.run handle (some p) ((now, .fragment f.1 (some view)) :: xs)).1 =
          verdict p.fragments.length p.info.totalSizeBytes.toNat
            fun i => (p.part i).or (partOf (f :: fs) i) := by
      intro code hstep hrejected
      rw [hroom] at hstep
      rw [Machine.run_cons_ok (handle_of_step hstep), messagesOf_cons, ih h hinfo hcomplete]
      exact verdict_congr fun i hi => or_partOf_of_rejected h hrejected hi
    by_cases hlt : f.1.toNat < p.fragments.length
    · have hlt' : f.1.toNat < ((package (some p)).withRoom f.1).fragments.length := by rwa [hroom]
      rcases hpart : p.part f.1.toNat with _ | bytes
      · have hstep : step now (some p) (.fragment f.1 (some view)) = _ :=
          step_fragment_of_new hlength hlt' hpart
        rw [hroom] at hstep
        have hcounted := h.withFragment hlt (FragmentedPackage.part_eq_none.mp hpart) now view
        have hlen : (p.withFragment now f.1 view).fragments.length = p.fragments.length :=
          FragmentedPackage.length_withFragment
        rw [← verdict_congr fun i hi => or_partOf_of_new h hlt hpart now hbytes hi, ← hlen]
        by_cases hcomplete' : (p.withFragment now f.1 view).Complete
        · exact messagesOf_of_complete hcounted hcomplete' hxs hstep
        · rw [finish_of_not_complete hcounted hcomplete'] at hstep
          rw [Machine.run_cons_ok (handle_of_step hstep), messagesOf_cons,
            ih hcounted hinfo hcomplete']
          rfl
      · have hsome : (p.part f.1.toNat).isSome = true := by
          rw [hpart]
          rfl
        exact hskip _ (step_fragment_of_isSome hlength hlt' hsome) (Or.inr hsome)
    · have hle : p.fragments.length ≤ f.1.toNat := Nat.not_lt.mp hlt
      exact hskip _ (step_fragment_of_le hlength (by rwa [hroom])) (Or.inl hle)

/-- An overcounted package delivers nothing any more. -/
theorem messagesOf_run_of_overcounted {xs : List (TimePoint × Arrival)}
    {fs : List (UInt32 × List UInt8)} (hxs : List.Forall₂ IsFragment xs fs)
    {p : FragmentedPackage} (h : p.Overcounted) :
    messagesOf (Machine.run handle (some p) xs).1 = [] := by
  induction hxs generalizing p with
  | nil => rfl
  | @cons x f xs fs hx hxs ih =>
    obtain ⟨now, a⟩ := x
    obtain ⟨view, rfl, -⟩ := hx
    rcases hc : checked now (some p) (.fragment f.1 (some view)) with _ | q
    · obtain ⟨code, -, hstep⟩ := step_of_not_checked hc
      have hleft : rejected (some p) (.fragment f.1 (some view)) = some p :=
        congrArg some (FragmentedPackage.withRoom_of_info h.announced f.1)
      rw [hleft] at hstep
      rw [Machine.run_cons_ok (handle_of_step hstep), messagesOf_cons_none rfl]
      exact ih h
    · have hroom : (package (some p)).withRoom f.1 = p :=
        FragmentedPackage.withRoom_of_info h.announced f.1
      have hstep := step_of_checked hc
      simp only [checked, hroom] at hc
      obtain ⟨hlt, hempty, v, -, rfl⟩ := stored_eq_some hc
      obtain ⟨hover, -⟩ := h.withFragment hlt hempty now v
      rcases finish_of_overcounted hover with ⟨-, hfault⟩ | ⟨-, hleft⟩
      · rw [hfault] at hstep
        rw [Machine.run_cons_error (by rw [handle, hstep]; rfl)]
        rfl
      · rw [hleft] at hstep
        rw [Machine.run_cons_ok (handle_of_step hstep), messagesOf_cons_none rfl]
        exact ih hover

/-- An info that cuts off nothing leaves what it has and what comes later to decide; after one that
cuts off a fragment, nothing is delivered. -/
theorem Unannounced.messagesOf_run_info (h : entry.Unannounced) {xs : List (TimePoint × Arrival)}
    {fs : List (UInt32 × List UInt8)} (hxs : List.Forall₂ IsFragment xs fs) (now : TimePoint)
    (num len : UInt32) :
    (¬ entry.package.CutsOff num →
      messagesOf (Machine.run handle entry ((now, .info num len) :: xs)).1 =
        verdict num.toNat len.toNat fun i => (entry.package.part i).or (partOf fs i)) ∧
    (entry.package.CutsOff num →
      messagesOf (Machine.run handle entry ((now, .info num len) :: xs)).1 = []) := by
  have hstep : step now entry (.info num len) = finish (entry.package.withInfo now num len) :=
    if_neg (by simp [h.info])
  constructor
  · intro hcut
    have hcounted := h.counted.withInfo now len hcut
    have hverdict : verdict num.toNat len.toNat
        (fun i => (entry.package.part i).or (partOf fs i)) =
          verdict (entry.package.withInfo now num len).fragments.length len.toNat
            (fun i => ((entry.package.withInfo now num len).part i).or (partOf fs i)) := by
      rw [FragmentedPackage.length_withInfo]
      apply verdict_congr
      intro i _
      rw [FragmentedPackage.part_withInfo_of_not_cutsOff hcut]
    rw [hverdict]
    by_cases hcomplete : (entry.package.withInfo now num len).Complete
    · exact messagesOf_of_complete hcounted hcomplete hxs hstep
    · rw [finish_of_not_complete hcounted hcomplete] at hstep
      rw [Machine.run_cons_ok (handle_of_step hstep), messagesOf_cons_none rfl]
      exact messagesOf_run_of_counted hxs hcounted rfl hcomplete
  · intro hcut
    have hover := h.counted.withInfo_overcounted now len hcut
    rcases finish_of_overcounted hover with ⟨-, hfault⟩ | ⟨-, hleft⟩
    · rw [hfault] at hstep
      rw [Machine.run_cons_error (by rw [handle, hstep]; rfl)]
      rfl
    · rw [hleft] at hstep
      rw [Machine.run_cons_ok (handle_of_step hstep), messagesOf_cons_none rfl]
      exact messagesOf_run_of_overcounted hxs hover

end Entry

/-! ## Orders -/

/-- A datagram of a fragmented message: an info, or a fragment whose announced length is that of its
payload. -/
inductive Piece where
  | info (num len : UInt32)
  | fragment (num : UInt32) (payload : List UInt8) (h : payload.length < 2 ^ 32)

namespace Piece

/-- The bytes of the datagram. -/
def encode (magic : Magic) (id : Int32) : Piece → List UInt8
  | info num len => wireHeader magic .fragmentedMessageInfo id num len
  | fragment num payload _ =>
    wireHeader magic .fragment id num (UInt32.ofNat payload.length) ++ payload

/-- The number and the payload of a fragment. -/
def numbered : Piece → Option (UInt32 × List UInt8)
  | info _ _ => none
  | fragment num payload _ => some (num, payload)

/-- The fragments among some pieces. -/
def fragments (pieces : List Piece) : List (UInt32 × List UInt8) := pieces.filterMap numbered

/-- The pieces in front of the info. -/
def beforeInfo (pieces : List Piece) : List Piece := pieces.takeWhile fun x => x.numbered.isSome

/-- A fragment that the info does not announce comes before it. A fragment with the largest number
does not count: it is not stored at all. -/
def Overtaken (num : UInt32) (pieces : List Piece) : Prop :=
  ∃ f ∈ fragments (beforeInfo pieces), num ≤ f.1 ∧ f.1.toNat + 1 < 2 ^ 32

instance (num : UInt32) (pieces : List Piece) : Decidable (Overtaken num pieces) :=
  inferInstanceAs (Decidable (∃ f ∈ _, _))

end Piece

variable {E : Type} [LinearOrder E]

/-- A call that hands in a piece under `key`. -/
structure Handing (key : FragmentedPackageKey E) where
  piece : Piece
  magic : Magic
  env : Env
  buffer : RawMemory
  hbuffer : buffer.bytes = piece.encode magic key.id
  error : Error

def Handing.call {key : FragmentedPackageKey E} (x : Handing key) : Call E :=
  .handleDatagram x.env x.buffer key.endpoint x.error

/-- The messages delivered when the pieces are handed in one after the other, up to the first fault
if there is one. -/
def deliveries (host : ByteOrder) (packages : Reassembly E) {key : FragmentedPackageKey E}
    (order : List (Handing key)) : List (List UInt8) :=
  messagesOf (Machine.run (step host) packages (order.map Handing.call)).1

section Orders

variable {host : ByteOrder} {key : FragmentedPackageKey E}

omit [LinearOrder E] in
theorem Handing.isFragment (host : ByteOrder) (x : Handing key) {f : UInt32 × List UInt8}
    (h : x.piece.numbered = some f) :
    ∃ y, IsArrival host key x.call y ∧ Entry.IsFragment y f := by
  obtain ⟨piece, magic, env, buffer, hbuffer, error⟩ := x
  cases piece with
  | info num len => cases h
  | fragment num payload hlt =>
    cases h
    have hlen : (UInt32.ofNat payload.length).toNat = payload.length := by
      rw [UInt32.toNat_ofNat', Nat.mod_eq_of_lt hlt]
    obtain ⟨view, harr, hview⟩ := arrivalOf_wireFragment host hbuffer
    obtain ⟨v, rfl, -, hbytes⟩ := hview (by rw [hlen, Nat.mod_eq_of_lt hlt])
    refine ⟨(env.now, .fragment num (some v)), ⟨env, buffer, error, rfl, rfl, harr⟩, v, rfl, ?_⟩
    rw [hbytes, hlen, List.take_length]

omit [LinearOrder E] in
theorem Handing.isInfo (host : ByteOrder) (x : Handing key) {num len : UInt32}
    (h : x.piece = .info num len) :
    IsArrival host key x.call (x.env.now, .info num len) := by
  obtain ⟨piece, magic, env, buffer, hbuffer, error⟩ := x
  obtain rfl : piece = _ := h
  have hinfo : buffer.bytes = wireHeader magic .fragmentedMessageInfo key.id num len ++ [] := by
    rw [List.append_nil]
    exact hbuffer
  exact ⟨env, buffer, error, rfl, rfl, arrivalOf_wireInfo host hinfo⟩

omit [LinearOrder E] in
theorem exists_readings (host : ByteOrder) {order : List (Handing key)}
    (h : ∀ x ∈ order, x.piece.numbered.isSome = true) :
    ∃ xs, List.Forall₂ (IsArrival host key) (order.map Handing.call) xs ∧
      List.Forall₂ Entry.IsFragment xs (Piece.fragments (order.map Handing.piece)) := by
  induction order with
  | nil => exact ⟨[], .nil, .nil⟩
  | cons x order ih =>
    obtain ⟨f, hf⟩ := Option.isSome_iff_exists.mp (h x List.mem_cons_self)
    obtain ⟨xs, harrivals, hfragments⟩ := ih fun y hy => h y (List.mem_cons_of_mem _ hy)
    obtain ⟨y, harrival, hfragment⟩ := x.isFragment host hf
    refine ⟨y :: xs, .cons harrival harrivals, ?_⟩
    rw [List.map_cons, Piece.fragments, List.filterMap_cons_some hf]
    exact .cons hfragment hfragments

/-- An info cuts off exactly the fragments that are stored and out of range. -/
theorem cutsOff_iff {p : FragmentedPackage} {fs : List (UInt32 × List UInt8)} {num : UInt32}
    (hpart : ∀ i, p.part i = if i + 1 < 2 ^ 32 then Entry.partOf fs i else none) :
    p.CutsOff num ↔ ∃ f ∈ fs, num ≤ f.1 ∧ f.1.toNat + 1 < 2 ^ 32 := by
  constructor
  · rintro ⟨i, hi, hsome⟩
    rw [hpart] at hsome
    split_ifs at hsome with hlt
    obtain ⟨f, hf, heq⟩ := List.lookup_isSome_iff.mp hsome
    have hnum : f.1.toNat = i := by
      rw [← eq_of_beq heq, UInt32.toNat_ofNat', Nat.mod_eq_of_lt (by omega)]
    refine ⟨f, hf, UInt32.le_iff_toNat_le.mpr ?_, ?_⟩
    · rwa [hnum]
    · rwa [hnum]
    · cases hsome
  · rintro ⟨f, hf, hle, hlt⟩
    refine ⟨f.1.toNat, UInt32.le_iff_toNat_le.mp hle, ?_⟩
    rw [hpart, if_pos hlt, Entry.partOf, UInt32.ofNat_toNat]
    exact List.lookup_isSome_iff.mpr ⟨f, hf, BEq.rfl⟩

theorem messagesOf_append (os os' : List (Option Outcome)) :
    messagesOf (os ++ os') = messagesOf os ++ messagesOf os' :=
  List.filterMap_append

/-- Fragments, the info and more fragments deliver the message if they make it up and no
out-of-range fragment overtakes the info. -/
theorem deliveries_split {packages : Reassembly E} (hkey : packages[key]? = none)
    {before after : List (Handing key)} {x : Handing key} {num len : UInt32}
    (hbefore : ∀ y ∈ before, y.piece.numbered.isSome = true) (hx : x.piece = .info num len)
    (hafter : ∀ y ∈ after, y.piece.numbered.isSome = true) :
    deliveries host packages (before ++ x :: after) =
      if Piece.Overtaken num ((before ++ x :: after).map Handing.piece) then []
      else verdict num.toNat len.toNat
        (Entry.partOf (Piece.fragments ((before ++ x :: after).map Handing.piece))) := by
  obtain ⟨xs₁, harr₁, hfrag₁⟩ := exists_readings host hbefore
  obtain ⟨xs₂, harr₂, hfrag₂⟩ := exists_readings host hafter
  have harr : List.Forall₂ (IsArrival host key) ((before ++ x :: after).map Handing.call)
      (xs₁ ++ (x.env.now, .info num len) :: xs₂) := by
    rw [List.map_append, List.map_cons]
    exact List.rel_append harr₁ (.cons (x.isInfo host hx) harr₂)
  obtain ⟨hnone, entry, hend, hentry, hpart⟩ := Entry.unannounced_none.run hfrag₁
  have hpart' : ∀ i, entry.package.part i =
      if i + 1 < 2 ^ 32 then
        Entry.partOf (Piece.fragments (before.map Handing.piece)) i else none := by
    intro i
    rw [hpart]
    rfl
  obtain ⟨hfits, hcuts⟩ := hentry.messagesOf_run_info hfrag₂ x.env.now num len
  -- the pieces in front of the info, and the fragments on both sides of it
  have hfront : Piece.beforeInfo ((before ++ x :: after).map Handing.piece) =
      before.map Handing.piece := by
    rw [Piece.beforeInfo, List.map_append, List.map_cons, List.takeWhile_append_of_pos,
      List.takeWhile_cons_of_neg, List.append_nil]
    · simp [hx, Piece.numbered]
    · simpa using hbefore
  have hfragments : Piece.fragments ((before ++ x :: after).map Handing.piece) =
      Piece.fragments (before.map Handing.piece) ++ Piece.fragments (after.map Handing.piece) := by
    unfold Piece.fragments
    rw [List.map_append, List.map_cons, List.filterMap_append, List.filterMap_cons_none]
    rw [hx]
    rfl
  have hovertaken : Piece.Overtaken num ((before ++ x :: after).map Handing.piece) ↔
      entry.package.CutsOff num := by
    rw [cutsOff_iff hpart', Piece.Overtaken, hfront]
  unfold deliveries
  rw [run_atKey host harr, hkey, Machine.run_append _ hend, messagesOf_append, hnone,
    List.nil_append]
  split_ifs with hover
  · exact hcuts (hovertaken.mp hover)
  · rw [hfits (hovertaken.not.mp hover), hfragments]
    apply verdict_congr
    intro i hi
    have hlt : i + 1 < 2 ^ 32 := by
      have := num.toNat_lt
      omega
    rw [hpart', if_pos hlt, Entry.partOf, Entry.partOf, Entry.partOf, List.lookup_append]

omit [LinearOrder E] in
theorem exists_split {order : List (Handing key)} {num len : UInt32}
    {fragments : List Piece} (hfragments : ∀ f ∈ fragments, f.numbered.isSome = true)
    (h : (order.map Handing.piece).Perm (.info num len :: fragments)) :
    ∃ before x after, order = before ++ x :: after ∧ x.piece = .info num len ∧
      (∀ y ∈ before, y.piece.numbered.isSome = true) ∧
      (∀ y ∈ after, y.piece.numbered.isSome = true) ∧
      (Piece.fragments (order.map Handing.piece)).Perm (Piece.fragments fragments) := by
  have hmem : Piece.info num len ∈ order.map Handing.piece := h.mem_iff.mpr List.mem_cons_self
  obtain ⟨x, hxmem, hx⟩ := List.mem_map.mp hmem
  obtain ⟨before, after, rfl⟩ := List.append_of_mem hxmem
  rw [List.map_append, List.map_cons, hx] at h
  have hrest := (List.perm_middle.symm.trans h).cons_inv
  have hall : ∀ f ∈ before.map Handing.piece ++ after.map Handing.piece, f.numbered.isSome = true :=
    fun f hf => hfragments f (hrest.mem_iff.mp hf)
  refine ⟨before, x, after, rfl, hx, fun y hy => ?_, fun y hy => ?_, ?_⟩
  · exact hall _ (List.mem_append_left _ (List.mem_map_of_mem hy))
  · exact hall _ (List.mem_append_right _ (List.mem_map_of_mem hy))
  · rw [List.map_append, List.map_cons, hx]
    exact h.filterMap _

theorem partOf_perm {fs gs : List (UInt32 × List UInt8)} (hnodup : (gs.map Prod.fst).Nodup)
    (h : fs.Perm gs) (i : ℕ) : Entry.partOf fs i = Entry.partOf gs i := by
  unfold Entry.partOf
  induction h with
  | nil => rfl
  | cons f _ ih =>
    rw [List.map_cons, List.nodup_cons] at hnodup
    rw [List.lookup_cons, List.lookup_cons, ih hnodup.2]
  | swap f g l =>
    rw [List.map_cons, List.map_cons, List.nodup_cons] at hnodup
    have hne : f.1 ≠ g.1 := fun heq => hnodup.1 (by simp [heq])
    rw [List.lookup_cons, List.lookup_cons, List.lookup_cons, List.lookup_cons]
    by_cases hf : UInt32.ofNat i = f.1
    · have hg : (UInt32.ofNat i == g.1) = false := by
        rw [beq_eq_false_iff_ne, hf]
        exact hne
      rw [hg]
    · have hf' : (UInt32.ofNat i == f.1) = false := beq_eq_false_iff_ne.mpr hf
      rw [hf']
  | trans _ h₂ ih₁ ih₂ =>
    rw [ih₁ ((h₂.map Prod.fst).nodup_iff.mpr hnodup), ih₂ hnodup]

/-- What an order of the pieces delivers. -/
theorem deliveries_eq {packages : Reassembly E} (hkey : packages[key]? = none)
    {order : List (Handing key)} {num len : UInt32} {fragments : List Piece}
    (hfragments : ∀ f ∈ fragments, f.numbered.isSome = true)
    (hnodup : ((Piece.fragments fragments).map Prod.fst).Nodup)
    (h : (order.map Handing.piece).Perm (.info num len :: fragments)) :
    deliveries host packages order =
      if Piece.Overtaken num (order.map Handing.piece) then []
      else verdict num.toNat len.toNat (Entry.partOf (Piece.fragments fragments)) := by
  obtain ⟨before, x, after, rfl, hx, hbefore, hafter, hperm⟩ := exists_split hfragments h
  rw [deliveries_split hkey hbefore hx hafter,
    verdict_congr fun i _ => partOf_perm hnodup hperm i]

/-- Fragments that make up the message are delivered in an order if and only if no fragment that is
out of range is stored before the info comes. -/
theorem delivered_iff_not_overtaken {packages : Reassembly E} (hkey : packages[key]? = none)
    {order : List (Handing key)} {num len : UInt32} {fragments : List Piece}
    (hfragments : ∀ f ∈ fragments, f.numbered.isSome = true)
    (hnodup : ((Piece.fragments fragments).map Prod.fst).Nodup)
    (h : (order.map Handing.piece).Perm (.info num len :: fragments))
    (hwhole : Whole num.toNat len.toNat (Entry.partOf (Piece.fragments fragments))) :
    deliveries host packages order =
        [assembled num.toNat (Entry.partOf (Piece.fragments fragments))] ↔
      ¬ Piece.Overtaken num (order.map Handing.piece) := by
  rw [deliveries_eq hkey hfragments hnodup h, verdict, if_pos hwhole]
  split_ifs with hover <;> simp [hover]

/-- Order independence: two orders of the same pieces deliver the same unless the fragments make up
the message and out-of-range ones overtake the info in one of the orders only. -/
theorem deliveries_eq_iff (host : ByteOrder) {packages : Reassembly E}
    (hkey : packages[key]? = none)
    {order order' : List (Handing key)} {num len : UInt32} {fragments : List Piece}
    (hfragments : ∀ f ∈ fragments, f.numbered.isSome = true)
    (hnodup : ((Piece.fragments fragments).map Prod.fst).Nodup)
    (h : (order.map Handing.piece).Perm (.info num len :: fragments))
    (h' : (order'.map Handing.piece).Perm (.info num len :: fragments)) :
    deliveries host packages order = deliveries host packages order' ↔
      ¬ Whole num.toNat len.toNat (Entry.partOf (Piece.fragments fragments)) ∨
        (Piece.Overtaken num (order.map Handing.piece) ↔
          Piece.Overtaken num (order'.map Handing.piece)) := by
  rw [deliveries_eq hkey hfragments hnodup h, deliveries_eq hkey hfragments hnodup h']
  unfold verdict
  by_cases hwhole : Whole num.toNat len.toNat (Entry.partOf (Piece.fragments fragments))
  · rw [if_pos hwhole, or_iff_right (not_not.mpr hwhole)]
    by_cases hover : Piece.Overtaken num (order.map Handing.piece) <;>
      by_cases hover' : Piece.Overtaken num (order'.map Handing.piece) <;> simp [hover, hover']
  · rw [if_neg hwhole, ite_self, ite_self]
    exact ⟨fun _ => Or.inl hwhole, fun _ => rfl⟩

/-- Handing in a piece in a buffer of its own. -/
def Handing.of (key : FragmentedPackageKey E) (piece : Piece) : Handing key where
  piece := piece
  magic := Header.zero.magic
  env := ⟨0, .empty, fun _ => 0⟩
  buffer := .ofBytes (piece.encode Header.zero.magic key.id)
  hbuffer := RawMemory.bytes_ofBytes _
  error := ⟨.ok, ""⟩

end Orders

/-- An empty fragment. -/
def Piece.empty (num : UInt32) : Piece := .fragment num [] (by decide)

theorem deliveries_whole_message :
    deliveries .littleEndian (∅ : Reassembly ℕ)
        ([.info 1 0, .empty 0, .empty 1].map (Handing.of ⟨0, 7⟩)) =
      deliveries .littleEndian (∅ : Reassembly ℕ)
        ([.empty 0, .info 1 0, .empty 1].map (Handing.of ⟨0, 7⟩)) := by
  let key : FragmentedPackageKey ℕ := ⟨0, 7⟩
  have hperm : (([.info 1 0, .empty 0, .empty 1].map (Handing.of key)).map Handing.piece).Perm
      (.info 1 0 :: [.empty 0, .empty 1]) := .refl _
  have hperm' : (([.empty 0, .info 1 0, .empty 1].map (Handing.of key)).map Handing.piece).Perm
      (.info 1 0 :: [.empty 0, .empty 1]) := .swap _ _ _
  exact (deliveries_eq_iff .littleEndian rfl (by decide) (by decide) hperm hperm').mpr
    (Or.inr (by decide))

/-- Fragment 1 is out of range: the message of fragment 0 is delivered when fragment 1 comes after
the info, and never when it comes before. -/
theorem deliveries_differ :
    deliveries .littleEndian (∅ : Reassembly ℕ)
        ([.info 1 0, .empty 0, .empty 1].map (Handing.of ⟨0, 7⟩)) = [[]] ∧
      deliveries .littleEndian (∅ : Reassembly ℕ)
        ([.empty 0, .empty 1, .info 1 0].map (Handing.of ⟨0, 7⟩)) = [] := by
  decide

end Ecaludp
