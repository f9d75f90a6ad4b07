import Ecaludp.Pooled
import Ecaludp.Reassembly.Entry

/-!
# Pooled handlers are handlers

`load` follows the pointers: it puts the memory that a view points to into the view. A pooled
handler does to the pointers what the handler of `Reassembly` does to the loaded views (`Refines`),
as long as the buffer for the reassembled message is not one that a view points to.
-/

namespace Ecaludp

open ByteOrder

/-! ## Following pointers -/

namespace BufferView

/-- The view ends inside the bytes in use. -/
def InBounds (heap : Heap) (b : BufferView) : Prop :=
  b.offset + b.size ≤ (heap b.owningContainer).size

instance (heap : Heap) (b : BufferView) : Decidable (b.InBounds heap) :=
  inferInstanceAs (Decidable (_ ≤ _))

/-- The view with the memory that it points to. -/
def load (heap : Heap) (b : BufferView) : OwningBuffer :=
  if h : b.InBounds heap then ⟨heap b.owningContainer, b.offset, b.size, h⟩ else .ofRawMemory .empty

variable {heap heap' : Heap} {b : BufferView}

theorem load_of_inBounds (h : b.InBounds heap) :
    b.load heap = ⟨heap b.owningContainer, b.offset, b.size, h⟩ := dif_pos h

theorem size_load (h : b.InBounds heap) : (b.load heap).size = b.size := by
  rw [load_of_inBounds h]

theorem bytes_load (h : b.InBounds heap) : (b.load heap).bytes = b.bytes heap := by
  rw [load_of_inBounds h]
  rfl

theorem load_congr (h : heap' b.owningContainer = heap b.owningContainer) :
    b.load heap' = b.load heap := by
  by_cases hb : b.InBounds heap
  · have hb' : b.InBounds heap' := by rwa [InBounds, h]
    rw [load_of_inBounds hb, load_of_inBounds hb']
    simp only [h]
  · have hb' : ¬ b.InBounds heap' := by rwa [InBounds, h]
    rw [load, load, dif_neg hb, dif_neg hb']

theorem bytes_congr (h : heap' b.owningContainer = heap b.owningContainer) :
    b.bytes heap' = b.bytes heap := by
  rw [bytes, bytes, h]

theorem InBounds.congr (hb : b.InBounds heap)
    (h : heap' b.owningContainer = heap b.owningContainer) :
    b.InBounds heap' := by
  rw [InBounds, h]
  exact hb

end BufferView

/-- The package with its fragments loaded. -/
def PooledPackage.load (heap : Heap) (p : PooledPackage) : FragmentedPackage :=
  ⟨p.info, SlotList.map (BufferView.load heap) p.fragments⟩

/-- The surroundings of a call with the buffer that the pool hands out loaded. -/
def PooledEnv.load (heap : Heap) (env : PooledEnv) : Env :=
  ⟨env.now, heap env.largepackageBuffer, env.fresh⟩

namespace Pooled

open Reassembly (bytesAvailable)

variable {E : Type} [LinearOrder E] {heap heap' : Heap} {packages : PooledPackages E}

/-- The map with all fragments loaded. -/
def loadAll (heap : Heap) (packages : PooledPackages E) : Reassembly E :=
  packages.map fun _ p => p.load heap

theorem getElem?_loadAll (heap : Heap) (packages : PooledPackages E)
    (key : FragmentedPackageKey E) :
    (loadAll heap packages)[key]? = packages[key]?.map (PooledPackage.load heap) := by
  rw [loadAll, Std.ExtTreeMap.getElem?_map]

theorem package_loadAll (heap : Heap) (packages : PooledPackages E) (key : FragmentedPackageKey E) :
    (loadAll heap packages)[key]?.getD {} = (packages[key]?.getD {}).load heap := by
  rw [getElem?_loadAll]
  cases packages[key]? <;> rfl

theorem loadAll_insert (key : FragmentedPackageKey E) (p : PooledPackage) :
    loadAll heap (packages.insert key p) = (loadAll heap packages).insert key (p.load heap) := by
  refine Std.ExtTreeMap.ext_getElem? fun k => ?_
  rw [getElem?_loadAll, Std.ExtTreeMap.getElem?_insert, Std.ExtTreeMap.getElem?_insert,
    getElem?_loadAll]
  split_ifs <;> rfl

theorem loadAll_erase (key : FragmentedPackageKey E) :
    loadAll heap (packages.erase key) = (loadAll heap packages).erase key := by
  refine Std.ExtTreeMap.ext_getElem? fun k => ?_
  rw [getElem?_loadAll, Std.ExtTreeMap.getElem?_erase, Std.ExtTreeMap.getElem?_erase,
    getElem?_loadAll]
  split_ifs <;> rfl

theorem getElem?_removeOldPackages (maxAge : TimePoint) (packages : PooledPackages E)
    (key : FragmentedPackageKey E) :
    (removeOldPackages maxAge packages)[key]? =
      packages[key]?.filter fun p => !decide (p.info.lastAccess < maxAge) := by
  have hloop : removeOldPackages maxAge packages =
      EntryMap.eraseWhere (fun _ p => decide (p.info.lastAccess < maxAge)) packages := by
    unfold removeOldPackages EntryMap.eraseWhere
    simp only [decide_eq_true_eq]
  rw [hloop, EntryMap.getElem?_eraseWhere]

theorem loadAll_removeOldPackages (maxAge : TimePoint) :
    loadAll heap (removeOldPackages maxAge packages) =
      (loadAll heap packages).removeOldPackages maxAge := by
  refine Std.ExtTreeMap.ext_getElem? fun key => ?_
  rw [getElem?_loadAll, getElem?_removeOldPackages, Ecaludp.getElem?_removeOldPackages,
    getElem?_loadAll]
  rw [Entry.prune, Option.filter_map]
  rfl

/-! ## Stored fragments -/

theorem stored_insert {key : FragmentedPackageKey E} {p : PooledPackage} {b : BufferView}
    (h : Stored (packages.insert key p) b) : some b ∈ p.fragments ∨ Stored packages b := by
  obtain ⟨k, q, hq, hb⟩ := h
  rw [Std.ExtTreeMap.getElem?_insert] at hq
  split_ifs at hq
  · cases hq
    exact Or.inl hb
  · exact Or.inr ⟨k, q, hq, hb⟩

theorem stored_erase {key : FragmentedPackageKey E} {b : BufferView}
    (h : Stored (packages.erase key) b) :
    Stored packages b := by
  obtain ⟨k, q, hq, hb⟩ := h
  rw [Std.ExtTreeMap.getElem?_erase] at hq
  split_ifs at hq
  exact ⟨k, q, hq, hb⟩

theorem stored_removeOldPackages {maxAge : TimePoint} {b : BufferView}
    (h : Stored (removeOldPackages maxAge packages) b) : Stored packages b := by
  obtain ⟨k, q, hq, hb⟩ := h
  rw [getElem?_removeOldPackages, Option.filter_eq_some_iff] at hq
  exact ⟨k, q, hq.1, hb⟩

theorem stored_of_mem (key : FragmentedPackageKey E) {b : BufferView}
    (h : some b ∈ (packages[key]?.getD {}).fragments) : Stored packages b := by
  rcases hp : packages[key]? with _ | p <;> rw [hp] at h
  · cases h
  · exact ⟨key, p, hp, h⟩

theorem loadAll_congr
    (h : ∀ b, Stored packages b → heap' b.owningContainer = heap b.owningContainer) :
    loadAll heap' packages = loadAll heap packages := by
  refine Std.ExtTreeMap.ext_getElem? fun key => ?_
  rw [getElem?_loadAll, getElem?_loadAll]
  rcases hp : packages[key]? with _ | p
  · rfl
  · refine congrArg (fun fragments => some (FragmentedPackage.mk p.info fragments)) ?_
    refine List.map_congr_left fun fragment hfragment => ?_
    cases fragment with
    | none => rfl
    | some b => exact congrArg some (BufferView.load_congr (h b ⟨key, p, hp, hfragment⟩))

theorem mem_resize {l : List (Option BufferView)} {n : ℕ} {b : BufferView}
    (h : some b ∈ SlotList.resize l n) : some b ∈ l := by
  unfold SlotList.resize at h
  rcases List.mem_append.mp h with h | h
  · exact List.mem_of_mem_take h
  · cases List.eq_of_mem_replicate h

/-! ## Completion -/

section Completion

variable {fragments : List (Option BufferView)}

theorem cummulatedPackageSizes_eq (h : ∀ b, some b ∈ fragments → b.InBounds heap) :
    cummulatedPackageSizes fragments =
      Reassembly.cummulatedPackageSizes (SlotList.map (BufferView.load heap) fragments) := by
  unfold cummulatedPackageSizes Reassembly.cummulatedPackageSizes
  generalize 0 = total
  induction fragments generalizing total with
  | nil => rfl
  | cons fragment fragments ih =>
    rw [SlotList.map, List.map_cons, List.foldlM_cons, List.foldlM_cons]
    cases fragment with
    | none => rfl
    | some b =>
      have hrest := ih (fun c hc => h c (List.mem_cons_of_mem _ hc)) (total + b.size)
      rw [SlotList.map] at hrest
      show fragments.foldlM _ (total + b.size) = List.foldlM _ (total + (b.load heap).size) _
      rw [BufferView.size_load (h b List.mem_cons_self), hrest]

/-- The copy loop reads what it would read from loaded views: it never reads what it writes. -/
theorem foldlM_copyFragment (a : Address)
    (h : ∀ b, some b ∈ fragments → b.InBounds heap ∧ b.owningContainer ≠ a) (memory : RawMemory)
    (pos : ℕ) :
    fragments.foldlM (copyFragment a) (Function.update heap a memory, pos) =
      ((SlotList.map (BufferView.load heap) fragments).foldlM Reassembly.copyFragment
        (memory, pos)).map fun r => (Function.update heap a r.1, r.2) := by
  induction fragments generalizing memory pos with
  | nil => rfl
  | cons fragment fragments ih =>
    rw [SlotList.map, List.map_cons, List.foldlM_cons, List.foldlM_cons]
    cases fragment with
    | none => rfl
    | some b =>
      obtain ⟨hb, hne⟩ := h b List.mem_cons_self
      have hread : b.bytes (Function.update heap a memory) = (b.load heap).bytes := by
        rw [BufferView.bytes_load hb]
        exact BufferView.bytes_congr (Function.update_of_ne hne _ _)
      have hpooled : copyFragment a (Function.update heap a memory, pos) (some b) =
          (memory.write pos (b.load heap).bytes).map fun m =>
            (Function.update heap a m, pos + b.size) := by
        show ((Function.update heap a memory a).write pos
            (b.bytes (Function.update heap a memory)) >>=
          fun m => pure (Function.update (Function.update heap a memory) a m, pos + b.size)) = _
        rw [hread, Function.update_self]
        simp only [Function.update_idem]
        rfl
      have hloaded : Reassembly.copyFragment (memory, pos) (some (b.load heap)) =
          (memory.write pos (b.load heap).bytes).map fun m => (m, pos + b.size) := by
        rw [← BufferView.size_load hb]
        rfl
      rw [Option.map_some, hpooled, hloaded]
      cases memory.write pos (b.load heap).bytes with
      | error f => rfl
      | ok m => exact ih (fun c hc => h c (List.mem_cons_of_mem _ hc)) m (pos + b.size)

/-- The reassembled message is the one of the loaded package, and stands in the new buffer. -/
theorem reassemblePackage_eq (env : PooledEnv) {p : PooledPackage}
    (h : ∀ b, some b ∈ p.fragments → b.InBounds heap ∧ b.owningContainer ≠ env.largepackageBuffer) :
    ∃ x : Except Fault RawMemory,
      reassemblePackage env heap p = (x.map fun memory =>
        (Function.update heap env.largepackageBuffer memory,
          ⟨env.largepackageBuffer, 0, memory.size⟩)) ∧
      Reassembly.reassemblePackage (env.load heap) (p.load heap) =
        x.map OwningBuffer.ofRawMemory := by
  refine ⟨((p.load heap).fragments.foldlM Reassembly.copyFragment
    ((heap env.largepackageBuffer).resize p.info.totalSizeBytes.toNat env.fresh, 0)).map
      Prod.fst, ?_, ?_⟩
  · show (p.fragments.foldlM (copyFragment env.largepackageBuffer)
      (Function.update heap env.largepackageBuffer _, 0) >>= _) = _
    rw [foldlM_copyFragment _ h]
    show (Except.map _ ((p.load heap).fragments.foldlM Reassembly.copyFragment _) >>= _) = _
    rcases (p.load heap).fragments.foldlM Reassembly.copyFragment
      ((heap env.largepackageBuffer).resize p.info.totalSizeBytes.toNat env.fresh, 0) with f | r
    · rfl
    · show Except.ok (_,
          BufferView.mk _ _ (Function.update heap env.largepackageBuffer r.1 _).size) = _
      rw [Function.update_self]
      rfl
  · show ((p.load heap).fragments.foldlM Reassembly.copyFragment
      ((heap env.largepackageBuffer).resize p.info.totalSizeBytes.toNat env.fresh, 0) >>= _) = _
    rcases (p.load heap).fragments.foldlM Reassembly.copyFragment
      ((heap env.largepackageBuffer).resize p.info.totalSizeBytes.toNat env.fresh, 0) with f | r
    · rfl
    · rfl

end Completion

/-! ## Handlers -/

/-- A result with its pointers followed. -/
def loaded (r : PooledResult E) : HandlerResult E :=
  (loadAll r.1 r.2.1, r.2.2.1.map (BufferView.load r.1), r.2.2.2)

/-- The stored fragments are where they should be, and the buffer for a reassembled message is not
one that they or the datagram are in. -/
structure Sound (env : PooledEnv) (heap : Heap) (buffer : Address) (packages : PooledPackages E) :
    Prop where
  inBounds : ∀ b, Stored packages b → b.InBounds heap
  ne : ∀ b, Stored packages b → b.owningContainer ≠ env.largepackageBuffer
  buffer_ne : buffer ≠ env.largepackageBuffer

/-- What a call does to the memory and to the pointers: it writes to the buffer for a reassembled
message only, stores views into the datagram, and returns a view into one of these two. -/
structure Framed (env : PooledEnv) (heap : Heap) (buffer : Address) (packages : PooledPackages E)
    (r : PooledResult E) : Prop where
  unchanged : ∀ a ≠ env.largepackageBuffer, r.1 a = heap a
  stored : ∀ b, Stored r.2.1 b → Stored packages b ∨ b.owningContainer = buffer ∧ b.InBounds heap
  returned : ∀ b, r.2.2.1 = some b →
    b.InBounds r.1 ∧ (b.owningContainer = buffer ∨ b.owningContainer = env.largepackageBuffer)

/-- A pooled call and a call on the loaded views: they fault alike, or the results correspond. -/
inductive Refines (Q : PooledResult E → Prop) :
    Except Fault (PooledResult E) → Except Fault (HandlerResult E) → Prop
  | error (f : Fault) : Refines Q (.error f) (.error f)
  | ok (r : PooledResult E) (h : Q r) : Refines Q (.ok r) (.ok (loaded r))

section Handlers

variable {env : PooledEnv} {buffer : Address}

theorem Refines.mono {Q Q' : PooledResult E → Prop} {x : Except Fault (PooledResult E)}
    {y : Except Fault (HandlerResult E)} (h : Refines Q x y) (hQ : ∀ r, Q r → Q' r) :
    Refines Q' x y := by
  cases h with
  | error f => exact .error f
  | ok r h => exact .ok r (hQ r h)

theorem Refines.of_ok {Q : PooledResult E → Prop} {r : PooledResult E}
    {y : Except Fault (HandlerResult E)} (h : Refines Q (.ok r) y) : Q r := by
  cases h with
  | ok _ h => exact h

theorem refines_ok {Q : PooledResult E → Prop} (r : PooledResult E) {y : HandlerResult E}
    (hy : y = loaded r) (h : Q r) : Refines Q (.ok r) (.ok y) := hy ▸ .ok r h

/-- Views that were stored into the datagram on the way count as stored by the call. -/
theorem Framed.of_stored {packages' : PooledPackages E} {r : PooledResult E}
    (h : Framed env heap buffer packages' r)
    (hstored : ∀ b, Stored packages' b → Stored packages b ∨ b.owningContainer = buffer ∧
      b.InBounds heap) :
    Framed env heap buffer packages r where
  unchanged := h.unchanged
  stored b hb := (h.stored b hb).elim (hstored b) Or.inr
  returned := h.returned

theorem framed_of_none {packages' : PooledPackages E} (error : Error)
    (h : ∀ b, Stored packages' b → Stored packages b ∨ b.owningContainer = buffer ∧
      b.InBounds heap) :
    Framed env heap buffer packages (heap, packages', none, error) where
  unchanged _ _ := rfl
  stored := h
  returned b hb := by cases hb

theorem handleFragmentedPackageIfComplete_refines {key : FragmentedPackageKey E} {p : PooledPackage}
    (h : Sound env heap buffer packages) (hp : packages[key]? = some p) (error : Error) :
    Refines (Framed env heap buffer packages)
      (handleFragmentedPackageIfComplete env heap key p error packages)
      (Reassembly.handleFragmentedPackageIfComplete (env.load heap) key (p.load heap) error
        (loadAll heap packages)) := by
  have hfragments : ∀ b, some b ∈ p.fragments → Stored packages b := fun b hb => ⟨key, p, hp, hb⟩
  unfold handleFragmentedPackageIfComplete Reassembly.handleFragmentedPackageIfComplete
  have hsizes : cummulatedPackageSizes p.fragments =
      Reassembly.cummulatedPackageSizes (p.load heap).fragments :=
    cummulatedPackageSizes_eq fun b hb => h.inBounds b (hfragments b hb)
  show Refines _ _ (if (!p.info.fragmentInfoReceived
    || !(p.info.receivedFragments == p.info.totalFragments)) = true then _ else _)
  split_ifs with hincomplete
  · exact .ok (heap, packages, none, _) (framed_of_none _ fun b hb => Or.inl hb)
  · show Refines _ (cummulatedPackageSizes p.fragments >>= _)
      (Reassembly.cummulatedPackageSizes (p.load heap).fragments >>= _)
    rw [hsizes]
    rcases Reassembly.cummulatedPackageSizes (p.load heap).fragments with f | total
    · exact .error f
    · show Refines _ (if total ≠ p.info.totalSizeBytes.toNat then _ else _)
        (if total ≠ p.info.totalSizeBytes.toNat then _ else _)
      split_ifs with hsize
      · refine refines_ok (heap, packages.erase key, none, _) ?_
          (framed_of_none _ fun b hb => Or.inl (stored_erase hb))
        exact congrArg (·, none, _) (loadAll_erase key).symm
      · obtain ⟨x, hpooled, hloaded⟩ := reassemblePackage_eq env fun b hb =>
          ⟨h.inBounds b (hfragments b hb), h.ne b (hfragments b hb)⟩
        rw [hpooled, hloaded]
        cases x with
        | error f => exact .error f
        | ok memory =>
          set heap' := Function.update heap env.largepackageBuffer memory
          have hother : ∀ a ≠ env.largepackageBuffer, heap' a = heap a :=
            fun a ha => Function.update_of_ne ha _ _
          have hself : heap' env.largepackageBuffer = memory := Function.update_self ..
          set message : BufferView := ⟨env.largepackageBuffer, 0, memory.size⟩
          have hmessage : message.InBounds heap' := by
            show 0 + memory.size ≤ (heap' env.largepackageBuffer).size
            rw [hself, Nat.zero_add]
          refine refines_ok (heap', packages.erase key, some message, _) ?_ ⟨hother, ?_, ?_⟩
          · have hload : message.load heap' = .ofRawMemory memory := by
              rw [BufferView.load_of_inBounds hmessage]
              simp only [message, hself]
              rfl
            rw [loaded, Option.map_some, hload, loadAll_erase,
              loadAll_congr fun b hb => hother _ (h.ne b hb)]
          · exact fun b hb => Or.inl (stored_erase hb)
          · intro b hb
            cases hb
            exact ⟨hmessage, Or.inr rfl⟩

theorem Sound.insert (h : Sound env heap buffer packages) (key : FragmentedPackageKey E)
    {p : PooledPackage}
    (hp : ∀ b, some b ∈ p.fragments → Stored packages b ∨ b.owningContainer = buffer ∧
      b.InBounds heap) :
    Sound env heap buffer (packages.insert key p) ∧
      ∀ b, Stored (packages.insert key p) b →
        Stored packages b ∨ b.owningContainer = buffer ∧ b.InBounds heap := by
  have hstored : ∀ b, Stored (packages.insert key p) b →
      Stored packages b ∨ b.owningContainer = buffer ∧ b.InBounds heap :=
    fun b hb => (stored_insert hb).elim (hp b) Or.inl
  refine ⟨⟨fun b hb => ?_, fun b hb => ?_, h.buffer_ne⟩, hstored⟩
  · exact (hstored b hb).elim (h.inBounds b) And.right
  · rcases hstored b hb with hb | ⟨rfl, -⟩
    · exact h.ne b hb
    · exact h.buffer_ne

/-- A changed package goes back into the map, and is completed if it can be. -/
theorem insert_refines {key : FragmentedPackageKey E} {p : PooledPackage} {q : FragmentedPackage}
    (h : Sound env heap buffer packages)
    (hp : ∀ b, some b ∈ p.fragments → Stored packages b ∨ b.owningContainer = buffer ∧
      b.InBounds heap)
    (hload : p.load heap = q) (error : Error) :
    Refines (Framed env heap buffer packages)
      (handleFragmentedPackageIfComplete env heap key p error (packages.insert key p))
      (Reassembly.handleFragmentedPackageIfComplete (env.load heap) key q error
        ((loadAll heap packages).insert key q)) := by
  obtain ⟨hsound, hstored⟩ := h.insert key hp
  have hcomplete := handleFragmentedPackageIfComplete_refines hsound
    Std.ExtTreeMap.getElem?_insert_self error
  rw [loadAll_insert, hload] at hcomplete
  exact hcomplete.mono fun r hr => hr.of_stored hstored

variable (host : ByteOrder) (senderEndpoint : E) (error : Error)

theorem handleDatagramFragmentedMessageInfo_refines (h : Sound env heap buffer packages) :
    Refines (Framed env heap buffer packages)
      (handleDatagramFragmentedMessageInfo host env heap buffer senderEndpoint error packages)
      (Reassembly.handleDatagramFragmentedMessageInfo host (env.load heap)
        (heap buffer) senderEndpoint error (loadAll heap packages)) := by
  unfold handleDatagramFragmentedMessageInfo Reassembly.handleDatagramFragmentedMessageInfo
  simp only [package_loadAll]
  set id := (host.le32toh (Header.load host (heap buffer).data).id.toUInt32).toInt32
  set key : FragmentedPackageKey E := ⟨senderEndpoint, id⟩
  show Refines _ _ (if (packages[key]?.getD {}).info.fragmentInfoReceived = true then _ else _)
  split_ifs with hinfo
  · exact .ok (heap, packages, none, _) (framed_of_none _ fun b hb => Or.inl hb)
  · refine insert_refines h (fun b hb => Or.inl (stored_of_mem _ (mem_resize hb))) ?_ error
    exact congrArg (FragmentedPackage.mk _) (SlotList.resize_map ..).symm

theorem storeFragment_refines (h : Sound env heap buffer packages)
    (hbuffer : ¬ (heap buffer).size < sizeofHeader) {key : FragmentedPackageKey E}
    {p : PooledPackage} (hp : packages[key]? = some p) (num size : UInt32) :
    Refines (Framed env heap buffer packages)
      (storeFragment env heap buffer error packages key p num size)
      (Reassembly.storeFragment (env.load heap) (heap buffer) error
        (loadAll heap packages) hbuffer key (p.load heap) num size) := by
  have hlength : (p.load heap).fragments.length = p.fragments.length := SlotList.length_map _ _
  have hget : (p.load heap).fragments[num.toNat]? =
      p.fragments[num.toNat]?.map (Option.map (BufferView.load heap)) := List.getElem?_map ..
  unfold storeFragment Reassembly.storeFragment
  rw [hlength]
  by_cases hrange : num ≥ UInt32.ofNat p.fragments.length
  · rw [if_pos hrange, if_pos hrange]
    exact .ok (heap, packages, none, _) (framed_of_none _ fun b hb => Or.inl hb)
  · rw [if_neg hrange, if_neg hrange, hget]
    rcases p.fragments[num.toNat]? with _ | _ | stored
    · exact .error _
    · by_cases hsize : size > bytesAvailable (heap buffer)
      · simp only [Option.map_some, Option.map_none, dif_pos hsize, if_pos hsize]
        exact .ok (heap, packages, none, _) (framed_of_none _ fun b hb => Or.inl hb)
      · have hview : (payloadView buffer size).InBounds heap :=
          (Reassembly.payloadView (heap buffer) hbuffer size hsize).inBounds
        simp only [Option.map_some, Option.map_none, dif_neg hsize, if_neg hsize]
        refine insert_refines h (fun b hb => ?_) ?_ error
        · rcases List.mem_or_eq_of_mem_set hb with hb | hb
          · exact Or.inl ⟨key, p, hp, hb⟩
          · cases hb
            exact Or.inr ⟨rfl, hview⟩
        · have hload : (payloadView buffer size).load heap =
              Reassembly.payloadView (heap buffer) hbuffer size hsize :=
            BufferView.load_of_inBounds hview
          rw [← hload]
          exact congrArg (FragmentedPackage.mk _) List.map_set
    · exact .ok (heap, packages, none, _) (framed_of_none _ fun b hb => Or.inl hb)

theorem handleDatagramFragment_refines (h : Sound env heap buffer packages)
    (hbuffer : ¬ (heap buffer).size < sizeofHeader) :
    Refines (Framed env heap buffer packages)
      (handleDatagramFragment host env heap buffer senderEndpoint error packages)
      (Reassembly.handleDatagramFragment host (env.load heap) (heap buffer) senderEndpoint error
        (loadAll heap packages) hbuffer) := by
  unfold handleDatagramFragment Reassembly.handleDatagramFragment
  simp only [package_loadAll]
  set id := (host.le32toh (Header.load host (heap buffer).data).id.toUInt32).toInt32
  set num := host.le32toh (Header.load host (heap buffer).data).num
  set key : FragmentedPackageKey E := ⟨senderEndpoint, id⟩
  set p := packages[key]?.getD {}
  set fragments := if !p.info.fragmentInfoReceived then
    SlotList.resize p.fragments (max p.fragments.length (num + 1).toNat)
      else p.fragments with hgrown
  have hload : (if !(p.load heap).info.fragmentInfoReceived then
      SlotList.resize (p.load heap).fragments (max (p.load heap).fragments.length (num + 1).toNat)
      else (p.load heap).fragments) = SlotList.map (BufferView.load heap) fragments := by
    rw [hgrown, apply_ite (SlotList.map (BufferView.load heap)), ← SlotList.resize_map]
    show _ = if !p.info.fragmentInfoReceived then
      SlotList.resize _ (max p.fragments.length (num + 1).toNat) else _
    rw [← SlotList.length_map (BufferView.load heap) p.fragments]
    rfl
  obtain ⟨hsound, hstored⟩ := h.insert key (p := { p with fragments := fragments }) fun b hb => by
    refine Or.inl (stored_of_mem key ?_)
    change some b ∈ fragments at hb
    rw [hgrown] at hb
    split_ifs at hb
    · exact mem_resize hb
    · exact hb
  rw [hload]
  refine Refines.mono ?_ fun r hr => Framed.of_stored hr hstored
  have hstore := storeFragment_refines error hsound hbuffer Std.ExtTreeMap.getElem?_insert_self num
    (host.le32toh (Header.load host (heap buffer).data).len)
  rw [loadAll_insert] at hstore
  exact hstore

theorem handleDatagramNonFragmentedMessage_refines
    (hbuffer : ¬ (heap buffer).size < sizeofHeader) :
    Refines (Framed env heap buffer packages)
      (handleDatagramNonFragmentedMessage host heap buffer error packages)
      (Reassembly.handleDatagramNonFragmentedMessage host (heap buffer) error
        (loadAll heap packages) hbuffer) := by
  unfold handleDatagramNonFragmentedMessage Reassembly.handleDatagramNonFragmentedMessage
  set size := host.le32toh (Header.load host (heap buffer).data).len with hlen
  show Refines _ (if size > bytesAvailable (heap buffer) then _ else _)
    (if hsize : size > bytesAvailable (heap buffer) then _ else _)
  by_cases hsize : size > bytesAvailable (heap buffer)
  · rw [dif_pos hsize, if_pos hsize]
    exact .ok (heap, packages, none, _) (framed_of_none _ fun b hb => Or.inl hb)
  · have hview : (payloadView buffer size).InBounds heap :=
      (Reassembly.payloadView (heap buffer) hbuffer size hsize).inBounds
    rw [dif_neg hsize, if_neg hsize]
    refine refines_ok (heap, packages, some (payloadView buffer size), _) ?_
      ⟨fun _ _ => rfl, fun b hb => Or.inl hb, fun b hb => ?_⟩
    · rw [loaded, Option.map_some, BufferView.load_of_inBounds hview]
      rfl
    · cases hb
      exact ⟨hview, Or.inl rfl⟩

/-- The reassembly does to the pointers what it does to the views. -/
theorem reassemblyHandleDatagram_refines (h : Sound env heap buffer packages) :
    Refines (Framed env heap buffer packages)
      (reassemblyHandleDatagram host env heap buffer senderEndpoint error packages)
      (Reassembly.handleDatagram host (env.load heap) (heap buffer) senderEndpoint error
        (loadAll heap packages)) := by
  unfold reassemblyHandleDatagram Reassembly.handleDatagram
  by_cases hbuffer : (heap buffer).size < sizeofHeader
  · rw [if_pos hbuffer, dif_pos hbuffer]
    exact .ok (heap, packages, none, _) (framed_of_none _ fun b hb => Or.inl hb)
  · rw [if_neg hbuffer, dif_neg hbuffer]
    simp only
    split_ifs
    · exact handleDatagramFragmentedMessageInfo_refines host senderEndpoint error h
    · exact handleDatagramFragment_refines host senderEndpoint error h hbuffer
    · exact handleDatagramNonFragmentedMessage_refines host error hbuffer
    · exact .ok (heap, packages, none, _) (framed_of_none _ fun b hb => Or.inl hb)

theorem handleDatagram_refines (settings : SocketSettings) (pruneNow : TimePoint)
    (h : Sound env heap buffer packages) :
    Refines (Framed env heap buffer packages)
      (handleDatagram host settings pruneNow env heap buffer senderEndpoint error packages)
      (handleReceived (Reassembly.handleDatagram host) settings pruneNow
        (env.load heap) (heap buffer) senderEndpoint error (loadAll heap packages)) := by
  set maxAge := pruneNow - settings.maxReassemblyAge
  have hpruned : Sound env heap buffer (removeOldPackages maxAge packages) :=
    ⟨fun b hb => h.inBounds b (stored_removeOldPackages hb),
      fun b hb => h.ne b (stored_removeOldPackages hb), h.buffer_ne⟩
  suffices hframed : Refines (Framed env heap buffer (removeOldPackages maxAge packages)) _ _ from
    hframed.mono fun r hr => hr.of_stored fun b hb => Or.inl (stored_removeOldPackages hb)
  have hnone (e : Error) : Refines (Framed env heap buffer (removeOldPackages maxAge packages))
      (.ok (heap, removeOldPackages maxAge packages, none, e))
      (.ok (loadAll heap (removeOldPackages maxAge packages), none, e)) :=
    .ok (heap, removeOldPackages maxAge packages, none, e) (framed_of_none _ fun b hb => Or.inl hb)
  unfold handleDatagram handleReceived
  simp only [← loadAll_removeOldPackages]
  by_cases hsize : (heap buffer).size < sizeofHeaderCommon
  · rw [if_pos hsize, if_pos hsize]
    exact hnone _
  · rw [if_neg hsize, if_neg hsize]
    split_ifs with hmagic hversion
    · exact hnone _
    · have hreassembly := reassemblyHandleDatagram_refines host senderEndpoint error hpruned
      generalize reassemblyHandleDatagram host env heap buffer senderEndpoint error
        (removeOldPackages maxAge packages) = x at hreassembly
      generalize Reassembly.handleDatagram host (env.load heap) (heap buffer) senderEndpoint error
        (loadAll heap (removeOldPackages maxAge packages)) = y at hreassembly
      cases hreassembly with
      | error f => exact .error f
      | ok r hr =>
        refine refines_ok (r.1, r.2.1, if r.2.2.2.toBool then none else r.2.2.1, r.2.2.2) ?_
          ⟨hr.unchanged, hr.stored, fun b hb => hr.returned b ?_⟩
        · show (loadAll r.1 r.2.1, (if r.2.2.2.toBool then none else r.2.2.1.map _), r.2.2.2) =
            (loadAll r.1 r.2.1, Option.map _ (if r.2.2.2.toBool then none else r.2.2.1), r.2.2.2)
          cases r.2.2.2.toBool <;> rfl
        · change (if r.2.2.2.toBool then none else r.2.2.1) = some b at hb
          split_ifs at hb
          exact hb
    · exact hnone _
    · exact hnone _

end Handlers

end Pooled

end Ecaludp
