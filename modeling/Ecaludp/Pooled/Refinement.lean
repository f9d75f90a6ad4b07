import Ecaludp.Pooled.Load
import Ecaludp.Socket.ReceivedBytes

/-!
# Pooling is invisible

`Contents` is what a user sees of a socket: packages that own their fragments, the number of receive
operations under way, and the messages in hand as plain bytes. A socket with pooled buffers behaves
like it, with any number of operations and with messages held for as long as the user likes,
provided that the pools hand out no buffer that something points to (`pooling_invisible`).
-/

namespace Ecaludp

open ByteOrder Reassembly

/-! ## What the user sees -/

structure Contents (E : Type) [LinearOrder E] where
  packages : Reassembly E
  operations : ℕ
  messages : List (List UInt8)

variable {E : Type} [LinearOrder E]

def Contents.init : Contents E := ⟨∅, 0, []⟩

/-- One event: a datagram is handled in memory that nobody else uses, and what is in hand stays as
it was handed out. -/
def Contents.step (host : ByteOrder) (settings : SocketSettings) (c : Contents E) :
    Pooled.Event E → Except Fault (Contents E × Option Outcome)
  | .receive _ _ _ _ => .ok ({ c with operations := c.operations + 1 }, none)
  | .error operation =>
    .ok ({ c with operations :=
      if operation < c.operations then c.operations - 1 else c.operations }, none)
  | .datagram operation bytes _ senderEndpoint _ pruneNow env =>
    if operation < c.operations then
      (Socket.step host settings c.packages
        ⟨pruneNow, ⟨env.now, .empty, fun _ => 0⟩, .ofBytes bytes, senderEndpoint,
          ⟨.genericError, ""⟩⟩).map
        fun r => (⟨r.1, c.operations - 1, c.messages ++ r.2.message.toList⟩, some r.2)
    else .ok (c, none)
  | .release message => .ok ({ c with messages := c.messages.eraseIdx message }, none)

namespace RawMemory

theorem resize_self (m : RawMemory) (fresh : ℕ → UInt8) : m.resize m.size fresh = m := by
  have h : ¬ m.size > m.capacity := Nat.not_lt.mpr m.size_le
  have hdata : m.reservedData m.size fresh = m.data := if_neg h
  obtain ⟨data, size, hle⟩ := m
  unfold resize reserve
  simp only at hdata ⊢
  simp only [hdata]

end RawMemory

namespace Pooled

/-! ## The invariant -/

/-- The buffers of the operations are distinct, as large as a datagram can be, and nothing points to
them; views end inside the bytes in use. -/
structure State.WellFormed (s : State E) : Prop where
  nodup : s.operations.Nodup
  size : ∀ a ∈ s.operations, (s.heap a).size = maxUdpDatagramSize
  unviewed : ∀ a ∈ s.operations, ∀ b, s.Views b → b.owningContainer ≠ a
  inBounds : ∀ b, s.Views b → b.InBounds s.heap

/-- The user sees these contents of the socket. -/
structure Shows (s : State E) (c : Contents E) : Prop where
  wellFormed : s.WellFormed
  packages : SameContent (loadAll s.heap s.packages) c.packages
  operations : s.operations.length = c.operations
  messages : s.messages.map (BufferView.bytes s.heap) = c.messages

theorem not_stored_empty (b : BufferView) : ¬ Stored (∅ : PooledPackages E) b := by
  rintro ⟨key, p, hp, -⟩
  rw [Std.ExtTreeMap.getElem?_empty] at hp
  cases hp

theorem shows_init (heap : Heap) : Shows (State.init heap : State E) Contents.init where
  wellFormed := by
    have hviews : ∀ b, ¬ (State.init heap : State E).Views b := by
      rintro b (hb | hb)
      · exact not_stored_empty b hb
      · cases hb
    exact ⟨List.nodup_nil, fun a ha => (List.not_mem_nil ha).elim,
      fun a ha => (List.not_mem_nil ha).elim, fun b hb => absurd hb (hviews b)⟩
  packages key := by
    rw [getElem?_loadAll]
    show Entry.forget ((∅ : PooledPackages E)[key]?.map _) = Entry.forget (∅ : Reassembly E)[key]?
    rw [Std.ExtTreeMap.getElem?_empty, Std.ExtTreeMap.getElem?_empty]
    rfl
  operations := rfl
  messages := rfl

section Step

variable {host : ByteOrder} {settings : SocketSettings} {s : State E} {c : Contents E}

theorem Shows.congr_heap (h : Shows s c) {heap : Heap} {operations : List Address} {n : ℕ}
    (hheap : ∀ b, s.Views b → heap b.owningContainer = s.heap b.owningContainer)
    (hnodup : operations.Nodup) (hsize : ∀ a ∈ operations, (heap a).size = maxUdpDatagramSize)
    (hunviewed : ∀ a ∈ operations, ∀ b, s.Views b → b.owningContainer ≠ a)
    (hn : operations.length = n) :
    Shows { s with heap := heap, operations := operations } { c with operations := n } where
  wellFormed :=
    { nodup := hnodup
      size := hsize
      unviewed := hunviewed
      inBounds := fun b hb => (h.wellFormed.inBounds b hb).congr (hheap b hb) }
  packages := by
    show SameContent (loadAll heap s.packages) c.packages
    rw [loadAll_congr fun b hb => hheap b (Or.inl hb)]
    exact h.packages
  operations := hn
  messages := by
    rw [← h.messages]
    exact List.map_congr_left fun b hb => BufferView.bytes_congr (hheap b (Or.inr hb))

theorem receive_agree (h : Shows s c) {datagramBuffer buffer : Address} {fresh fresh' : ℕ → UInt8}
    (hfresh : Event.Fresh s (.receive datagramBuffer buffer fresh fresh')) :
    Machine.Agree Shows (step host settings s (.receive datagramBuffer buffer fresh fresh'))
      (c.step host settings (.receive datagramBuffer buffer fresh fresh')) := by
  obtain ⟨hdatagramBuffer, hbuffer, hne⟩ := hfresh
  have hother : ∀ a, a ≠ datagramBuffer → a ≠ buffer → ∀ m m' : RawMemory,
      Function.update (Function.update s.heap datagramBuffer m) buffer m' a = s.heap a := by
    intro a h₁ h₂ m m'
    rw [Function.update_of_ne h₂, Function.update_of_ne h₁]
  have hin : ∀ a ∈ s.operations, a ≠ datagramBuffer ∧ a ≠ buffer := by
    intro a ha
    constructor
    · rintro rfl
      exact hdatagramBuffer (Or.inl ha)
    · rintro rfl
      exact hbuffer (Or.inl ha)
  refine .ok none (h.congr_heap (fun b hb => ?_) ?_ ?_ ?_ ?_)
  · refine hother _ ?_ ?_ _ _
    · rintro hb'
      exact hdatagramBuffer (Or.inr ⟨b, hb, hb'⟩)
    · rintro hb'
      exact hbuffer (Or.inr ⟨b, hb, hb'⟩)
  · rw [List.nodup_append]
    refine ⟨h.wellFormed.nodup, List.nodup_singleton _, fun a ha a' ha' => ?_⟩
    rw [List.mem_singleton.mp ha']
    exact (hin a ha).2
  · intro a ha
    rcases List.mem_append.mp ha with ha | ha
    · rw [hother a (hin a ha).1 (hin a ha).2]
      exact h.wellFormed.size a ha
    · rw [List.mem_singleton.mp ha, Function.update_self]
      rfl
  · intro a ha b hb
    rcases List.mem_append.mp ha with ha | ha
    · exact h.wellFormed.unviewed a ha b hb
    · rw [List.mem_singleton.mp ha]
      exact fun hb' => hbuffer (Or.inr ⟨b, hb, hb'⟩)
  · rw [List.length_append, h.operations]
    rfl

theorem error_agree (h : Shows s c) (operation : ℕ) :
    Machine.Agree Shows (step host settings s (.error operation))
      (c.step host settings (.error operation)) := by
  refine .ok none (h.congr_heap (fun _ _ => rfl) ?_ ?_ ?_ ?_)
  · exact h.wellFormed.nodup.sublist (List.eraseIdx_sublist ..)
  · exact fun a ha => h.wellFormed.size a (List.mem_of_mem_eraseIdx ha)
  · exact fun a ha => h.wellFormed.unviewed a (List.mem_of_mem_eraseIdx ha)
  · rw [List.length_eraseIdx, h.operations]

theorem release_agree (h : Shows s c) (message : ℕ) :
    Machine.Agree Shows (step host settings s (.release message))
      (c.step host settings (.release message)) := by
  have hviews : ∀ b,
      ({ s with messages := s.messages.eraseIdx message } : State E).Views b → s.Views b :=
    fun b hb => hb.imp_right List.mem_of_mem_eraseIdx
  refine .ok none ⟨⟨h.wellFormed.nodup, h.wellFormed.size, ?_, ?_⟩, h.packages, h.operations, ?_⟩
  · exact fun a ha b hb => h.wellFormed.unviewed a ha b (hviews b hb)
  · exact fun b hb => h.wellFormed.inBounds b (hviews b hb)
  · show (s.messages.eraseIdx message).map _ = c.messages.eraseIdx message
    rw [← h.messages, List.eraseIdx_map]

theorem exists_write {m : RawMemory} (hm : m.size = maxUdpDatagramSize) {bytes : List UInt8}
    (hlength : bytes.length ≤ maxUdpDatagramSize) (fresh : ℕ → UInt8) :
    ∃ memory, m.write 0 bytes = .ok memory ∧ (memory.resize bytes.length fresh).bytes = bytes := by
  obtain ⟨buffer, hreceive, hbytes⟩ :=
    (⟨bytes, hlength, (), m, fresh, 0, ⟨0, .empty, fresh⟩⟩ : ReceivedDatagram Unit).receive_eq_ok
  have hsame : m.resize maxUdpDatagramSize fresh = m := hm ▸ m.resize_self fresh
  change ((m.resize maxUdpDatagramSize fresh).write 0 bytes >>= fun memory =>
    pure (memory.resize bytes.length fresh)) = .ok buffer at hreceive
  rw [hsame] at hreceive
  rcases hwrite : m.write 0 bytes with f | memory <;> rw [hwrite] at hreceive
  · cases hreceive
  · cases hreceive
    exact ⟨memory, rfl, hbytes⟩

theorem outcome_loaded {env : PooledEnv} {heap : Heap} {buffer : Address}
    {packages : PooledPackages E} {r : PooledResult E} (h : Framed env heap buffer packages r) :
    Reassembly.outcome (loaded r).2 = outcome r := by
  obtain ⟨heap', packages', message, error⟩ := r
  cases message with
  | none => rfl
  | some b =>
    have hbytes := BufferView.bytes_load (h.returned b rfl).1
    exact congrArg (fun bytes => Outcome.mk (some bytes) error.errorCode) hbytes

theorem ne_of_mem_eraseIdx {l : List Address} (hl : l.Nodup) {i : ℕ} {a b : Address}
    (hi : l[i]? = some a) (hb : b ∈ l.eraseIdx i) : b ≠ a := by
  obtain ⟨j, hj, hget⟩ := List.mem_eraseIdx_iff_getElem?.mp hb
  rintro rfl
  have hlt : i < l.length := (List.getElem?_eq_some_iff.mp hi).1
  exact hj ((List.getElem?_inj hlt hl).mp (hi.trans hget.symm)).symm

/-- A view of the new state is one of the old state, or in one of the two buffers of the call. -/
theorem views_of_framed {env : PooledEnv} {heap : Heap} {buffer : Address} {r : PooledResult E}
    (h : Framed env heap buffer s.packages r) {b : BufferView}
    (hb : Stored r.2.1 b ∨ b ∈ s.messages ++ r.2.2.1.toList) :
    s.Views b ∨ b.owningContainer = buffer ∨ b.owningContainer = env.largepackageBuffer := by
  rcases hb with hb | hb
  · exact (h.stored b hb).elim (fun hb => Or.inl (Or.inl hb)) fun hb => Or.inr (Or.inl hb.1)
  · rcases List.mem_append.mp hb with hb | hb
    · exact Or.inl (Or.inr hb)
    · exact Or.inr (h.returned b (Option.mem_toList.mp hb)).2

/-- The handling of a datagram writes to no buffer that a view points to. -/
theorem heap_of_framed (h : s.WellFormed) {buffer : Address} {env : PooledEnv} {heap : Heap}
    {r : PooledResult E} (hmem : buffer ∈ s.operations) (hfresh : ¬ s.InUse env.largepackageBuffer)
    (hheap : ∀ a ≠ buffer, heap a = s.heap a) (hframed : Framed env heap buffer s.packages r)
    {b : BufferView} (hb : s.Views b) : r.1 b.owningContainer = s.heap b.owningContainer := by
  rw [hframed.unchanged _ fun hb' => hfresh (Or.inr ⟨b, hb, hb'⟩)]
  exact hheap _ (h.unviewed buffer hmem b hb)

/-- The handling of a datagram. -/
theorem shows_of_framed (h : Shows s c) {operation : ℕ} {buffer : Address} {env : PooledEnv}
    {heap : Heap} {r : PooledResult E} (hbuffer : s.operations[operation]? = some buffer)
    (hfresh : ¬ s.InUse env.largepackageBuffer) (hheap : ∀ a ≠ buffer, heap a = s.heap a)
    (hframed : Framed env heap buffer s.packages r) {packages : Reassembly E}
    (hpackages : SameContent (loaded r).1 packages) :
    Shows ⟨r.1, r.2.1, s.operations.eraseIdx operation, s.messages ++ r.2.2.1.toList⟩
      ⟨packages, c.operations - 1, c.messages ++ (outcome r).message.toList⟩ := by
  have hmem : buffer ∈ s.operations := List.mem_of_getElem? hbuffer
  have hlarge : buffer ≠ env.largepackageBuffer := by
    rintro rfl
    exact hfresh (Or.inl hmem)
  have hviewed : ∀ b, s.Views b → r.1 b.owningContainer = s.heap b.owningContainer :=
    fun b hb => heap_of_framed h.wellFormed hmem hfresh hheap hframed hb
  have hbounds : ∀ b, (Stored r.2.1 b ∨ b ∈ s.messages ++ r.2.2.1.toList) → b.InBounds r.1 := by
    have hold : ∀ b, s.Views b → b.InBounds r.1 := fun b hb =>
      (h.wellFormed.inBounds b hb).congr (hviewed b hb)
    rintro b (hb | hb)
    · rcases hframed.stored b hb with hb | ⟨rfl, hnew⟩
      · exact hold b (Or.inl hb)
      · exact hnew.congr (hframed.unchanged _ hlarge)
    · rcases List.mem_append.mp hb with hb | hb
      · exact hold b (Or.inr hb)
      · exact (hframed.returned b (Option.mem_toList.mp hb)).1
  have hothers : ∀ a ∈ s.operations.eraseIdx operation, a ≠ buffer ∧
      a ≠ env.largepackageBuffer := by
    intro a ha
    refine ⟨ne_of_mem_eraseIdx h.wellFormed.nodup hbuffer ha, ?_⟩
    rintro rfl
    exact hfresh (Or.inl (List.mem_of_mem_eraseIdx ha))
  refine ⟨⟨?_, fun a ha => ?_, fun a ha b hb => ?_, hbounds⟩, hpackages, ?_, ?_⟩
  · exact h.wellFormed.nodup.sublist (List.eraseIdx_sublist ..)
  · obtain ⟨hne, hne'⟩ := hothers a ha
    show (r.1 a).size = _
    rw [hframed.unchanged a hne', hheap a hne]
    exact h.wellFormed.size a (List.mem_of_mem_eraseIdx ha)
  · obtain ⟨hne, hne'⟩ := hothers a ha
    rcases views_of_framed hframed hb with hb | hb | hb
    · exact h.wellFormed.unviewed a (List.mem_of_mem_eraseIdx ha) b hb
    · exact fun hb' => hne (hb'.symm.trans hb)
    · exact fun hb' => hne' (hb'.symm.trans hb)
  · show (s.operations.eraseIdx operation).length = c.operations - 1
    rw [List.length_eraseIdx_of_lt (List.getElem?_eq_some_iff.mp hbuffer).1, h.operations]
  · show (s.messages ++ r.2.2.1.toList).map (BufferView.bytes r.1) = _
    rw [List.map_append, ← h.messages]
    refine congrArg₂ (· ++ ·) (List.map_congr_left fun b hb => ?_) ?_
    · exact BufferView.bytes_congr (hviewed b (Or.inr hb))
    · rw [outcome]
      cases r.2.2.1 <;> rfl

variable (host settings) in
/-- The datagram is written to the buffer of its operation; the handling that follows is framed. -/
theorem step_datagram (h : s.WellFormed) {operation : ℕ} {buffer : Address} {bytes : List UInt8}
    (hlength : bytes.length ≤ maxUdpDatagramSize) (senderEndpoint : E) (fresh : ℕ → UInt8)
    (pruneNow : TimePoint) {env : PooledEnv} (hbuffer : s.operations[operation]? = some buffer)
    (hfresh : ¬ s.InUse env.largepackageBuffer) :
    ∃ heap : Heap, (∀ a ≠ buffer, heap a = s.heap a) ∧ (heap buffer).bytes = bytes ∧
      step host settings s (.datagram operation bytes hlength senderEndpoint fresh pruneNow env) =
        (handleDatagram host settings pruneNow env heap buffer senderEndpoint ⟨.genericError, ""⟩
          s.packages).map (fun r => (⟨r.1, r.2.1, s.operations.eraseIdx operation,
            s.messages ++ r.2.2.1.toList⟩, some (outcome r))) ∧
      Refines (Framed env heap buffer s.packages)
        (handleDatagram host settings pruneNow env heap buffer senderEndpoint ⟨.genericError, ""⟩
          s.packages)
        (handleReceived (Reassembly.handleDatagram host) settings pruneNow
          (env.load heap) (heap buffer)
          senderEndpoint ⟨.genericError, ""⟩ (loadAll s.heap s.packages)) := by
  have hmem : buffer ∈ s.operations := List.mem_of_getElem? hbuffer
  obtain ⟨memory, hwrite, hbytes⟩ := exists_write (h.size buffer hmem) hlength fresh
  set heap := Function.update s.heap buffer (memory.resize bytes.length fresh)
  have hheap : ∀ a ≠ buffer, heap a = s.heap a := fun a ha => Function.update_of_ne ha _ _
  have hstored : ∀ b, Stored s.packages b → heap b.owningContainer = s.heap b.owningContainer :=
    fun b hb => hheap _ (h.unviewed buffer hmem b (Or.inl hb))
  have hsound : Sound env heap buffer s.packages :=
    { inBounds := fun b hb => (h.inBounds b (Or.inl hb)).congr (hstored b hb)
      ne := fun b hb hb' => hfresh (Or.inr ⟨b, Or.inl hb, hb'⟩)
      buffer_ne := by
        rintro rfl
        exact hfresh (Or.inl hmem) }
  refine ⟨heap, hheap, ?_, ?_, ?_⟩
  · rw [← hbytes]
    exact congrArg RawMemory.bytes (Function.update_self ..)
  · unfold step
    simp only [hbuffer, hwrite]
    rfl
  · rw [← loadAll_congr hstored]
    exact handleDatagram_refines host senderEndpoint ⟨.genericError, ""⟩ settings pruneNow hsound

theorem datagram_agree (h : Shows s c) {operation : ℕ} {bytes : List UInt8}
    {hlength : bytes.length ≤ maxUdpDatagramSize} {senderEndpoint : E} {fresh : ℕ → UInt8}
    {pruneNow : TimePoint} {env : PooledEnv}
    (hfresh : Event.Fresh s (.datagram operation bytes hlength senderEndpoint fresh pruneNow env)) :
    Machine.Agree Shows
      (step host settings s (.datagram operation bytes hlength senderEndpoint fresh pruneNow env))
      (c.step host settings
        (.datagram operation bytes hlength senderEndpoint fresh pruneNow env)) := by
  unfold Contents.step
  simp only
  rw [← h.operations]
  rcases hbuffer : s.operations[operation]? with _ | buffer
  · unfold step
    simp only [hbuffer]
    rw [if_neg (Nat.not_lt.mpr (List.getElem?_eq_none_iff.mp hbuffer))]
    exact .ok none h
  · obtain ⟨heap, hheap, hbytes, hstep, hrefines⟩ := step_datagram host settings h.wellFormed
      hlength senderEndpoint fresh pruneNow hbuffer hfresh
    have hsame : Machine.Agree SameContent
        (Socket.step host settings (loadAll s.heap s.packages)
          ⟨pruneNow, env.load heap, heap buffer, senderEndpoint, ⟨.genericError, ""⟩⟩)
        (Socket.step host settings c.packages
          ⟨pruneNow, ⟨env.now, .empty, fun _ => 0⟩, .ofBytes bytes,
          senderEndpoint, ⟨.genericError, ""⟩⟩) :=
      Socket.agree_of_bytes host settings h.packages rfl rfl
        (hbytes.trans (RawMemory.bytes_ofBytes bytes).symm) rfl rfl
    rw [Socket.step_eq_observed] at hsame
    rw [if_pos (List.getElem?_eq_some_iff.mp hbuffer).1, hstep, h.operations]
    generalize handleDatagram host settings pruneNow env heap buffer senderEndpoint
      ⟨.genericError, ""⟩ s.packages = x at hrefines ⊢
    generalize handleReceived (Reassembly.handleDatagram host) settings pruneNow (env.load heap)
      (heap buffer) senderEndpoint ⟨.genericError, ""⟩ (loadAll s.heap s.packages) = y
      at hrefines hsame
    generalize Socket.step host settings c.packages _ = z at hsame ⊢
    cases hrefines with
    | error f =>
      cases hsame with
      | error => exact .error f
    | ok r hframed =>
      cases hsame with
      | ok _ hpackages =>
        rw [outcome_loaded hframed]
        exact .ok (some (outcome r)) (shows_of_framed h hbuffer hfresh hheap hframed hpackages)

variable (host settings) in
/-- What the user sees changes as if there were no pools. -/
theorem step_agree (h : Shows s c) {e : Event E} (hfresh : e.Fresh s) :
    Machine.Agree Shows (step host settings s e) (c.step host settings e) := by
  cases e with
  | receive datagramBuffer buffer fresh fresh' => exact receive_agree h hfresh
  | error operation => exact error_agree h operation
  | datagram operation bytes hlength senderEndpoint fresh pruneNow env =>
    exact datagram_agree h hfresh
  | release message => exact release_agree h message

/-- The addresses that an event takes from the pools. -/
def Event.addresses : Event E → List Address
  | .receive datagramBuffer buffer _ _ => [datagramBuffer, buffer]
  | .datagram _ _ _ _ _ _ env => [env.largepackageBuffer]
  | _ => []

/-- What an event does to the pointers: it leaves the buffers that views point to as they are, and
points to nothing but what was in use or comes from the pools. -/
theorem step_framed (h : s.WellFormed) {e : Event E} (hfresh : e.Fresh s) {s' : State E}
    {o : Option Outcome} (hstep : step host settings s e = .ok (s', o)) :
    (∀ b, s.Views b → s'.heap b.owningContainer = s.heap b.owningContainer) ∧
      ∀ a, s'.InUse a → s.InUse a ∨ a ∈ e.addresses := by
  cases e with
  | receive datagramBuffer buffer fresh fresh' =>
    cases hstep
    refine ⟨fun b hb => ?_, fun a ha => ?_⟩
    · have hbuffer : b.owningContainer ≠ buffer := fun hb' => hfresh.2.1 (Or.inr ⟨b, hb, hb'⟩)
      have hdatagramBuffer : b.owningContainer ≠ datagramBuffer :=
        fun hb' => hfresh.1 (Or.inr ⟨b, hb, hb'⟩)
      exact (Function.update_of_ne hbuffer _ _).trans (Function.update_of_ne hdatagramBuffer _ _)
    · rcases ha with ha | ha
      · rcases List.mem_append.mp ha with ha | ha
        · exact Or.inl (Or.inl ha)
        · exact Or.inr (List.mem_cons_of_mem _ ha)
      · exact Or.inl (Or.inr ha)
  | error operation =>
    cases hstep
    exact ⟨fun _ _ => rfl, fun a ha => Or.inl (ha.imp_left List.mem_of_mem_eraseIdx)⟩
  | datagram operation bytes hlength senderEndpoint fresh pruneNow env =>
    rcases hbuffer : s.operations[operation]? with _ | buffer
    · unfold step at hstep
      simp only [hbuffer] at hstep
      cases hstep
      exact ⟨fun _ _ => rfl, fun a ha => Or.inl ha⟩
    · have hmem : buffer ∈ s.operations := List.mem_of_getElem? hbuffer
      obtain ⟨heap, hheap, -, hdatagram, hrefines⟩ := step_datagram host settings h
        hlength senderEndpoint fresh pruneNow hbuffer hfresh
      rw [hdatagram] at hstep
      obtain ⟨r, hr, hrs⟩ := Machine.map_eq_ok.mp hstep
      rw [hr] at hrefines
      have hframed := hrefines.of_ok
      cases hrs
      refine ⟨fun b hb => heap_of_framed h hmem hfresh hheap hframed hb, fun a ha => ?_⟩
      rcases ha with ha | ⟨b, hb, rfl⟩
      · exact Or.inl (Or.inl (List.mem_of_mem_eraseIdx ha))
      · rcases views_of_framed hframed hb with hb | hb | hb
        · exact Or.inl (Or.inr ⟨b, hb, rfl⟩)
        · exact Or.inl (Or.inl (hb ▸ hmem))
        · exact Or.inr (List.mem_singleton.mpr hb)
  | release message =>
    cases hstep
    refine ⟨fun _ _ => rfl, fun a ha => Or.inl (ha.imp_right ?_)⟩
    rintro ⟨b, hb, rfl⟩
    exact ⟨b, hb.imp_right List.mem_of_mem_eraseIdx, rfl⟩

end Step

/-! ## Runs -/

/-- The buffers that something points to. -/
def State.used (s : State E) : List Address :=
  s.operations ++ s.messages.map BufferView.owningContainer ++
    s.packages.toList.flatMap fun x => x.2.fragments.reduceOption.map BufferView.owningContainer

theorem mem_used (s : State E) (a : Address) : a ∈ s.used ↔ s.InUse a := by
  unfold State.used State.InUse State.Views Stored
  simp only [List.mem_append, List.mem_map, List.mem_flatMap, List.reduceOption_mem_iff,
    Std.ExtTreeMap.mem_toList_iff_getElem?_eq_some, Prod.exists]
  constructor
  · rintro ((ha | ⟨b, hb, rfl⟩) | ⟨key, p, hp, b, hb, rfl⟩)
    · exact Or.inl ha
    · exact Or.inr ⟨b, Or.inr hb, rfl⟩
    · exact Or.inr ⟨b, Or.inl ⟨key, p, hp, hb⟩, rfl⟩
  · rintro (ha | ⟨b, ⟨key, p, hp, hb⟩ | hb, rfl⟩)
    · exact Or.inl (Or.inl ha)
    · exact Or.inr ⟨key, p, hp, b, hb, rfl⟩
    · exact Or.inl (Or.inr ⟨b, hb, rfl⟩)

instance (s : State E) (a : Address) : Decidable (s.InUse a) := decidable_of_iff _ (mem_used s a)

instance (s : State E) (e : Event E) : Decidable (e.Fresh s) :=
  match e with
  | .receive _ _ _ _ => inferInstanceAs (Decidable (¬ _ ∧ ¬ _ ∧ _ ≠ _))
  | .datagram _ _ _ _ _ _ _ => inferInstanceAs (Decidable (¬ _))
  | .error _ | .release _ => .isTrue trivial

theorem exists_shows_of_step {host : ByteOrder} {settings : SocketSettings}
    {s s' : State E} {e : Event E} {o : Option Outcome} (h : ∃ c, Shows s c) (hfresh : e.Fresh s)
    (hstep : step host settings s e = .ok (s', o)) : ∃ c, Shows s' c := by
  obtain ⟨c, hc⟩ := h
  have hagree := step_agree host settings hc hfresh
  rw [hstep] at hagree
  generalize Contents.step host settings c e = y at hagree
  cases hagree with
  | ok _ hshows => exact ⟨_, hshows⟩

/-- Pools that make a new buffer every time keep their promise. -/
theorem along_fresh_of_nodup (host : ByteOrder) (settings : SocketSettings) {s : State E}
    {events : List (Event E)} (h : ∃ c, Shows s c) (hnodup : (events.flatMap Event.addresses).Nodup)
    (hnew : ∀ a ∈ events.flatMap Event.addresses, ¬ s.InUse a) :
    Machine.Along (step host settings) (fun s e => Event.Fresh s e) s events := by
  induction events generalizing s with
  | nil => trivial
  | cons e events ih =>
    rw [List.flatMap_cons] at hnodup hnew
    obtain ⟨hfirst, hrest, hdisjoint⟩ := List.nodup_append.mp hnodup
    have hfresh : e.Fresh s := by
      cases e with
      | receive datagramBuffer buffer fresh fresh' =>
        refine ⟨hnew _ (by simp [Event.addresses]), hnew _ (by simp [Event.addresses]), ?_⟩
        rintro rfl
        simp [Event.addresses] at hfirst
      | error operation => trivial
      | datagram operation bytes hlength senderEndpoint fresh pruneNow env =>
        exact hnew _ (by simp [Event.addresses])
      | release message => trivial
    refine ⟨hfresh, fun s' o hs => ih (exists_shows_of_step h hfresh hs) hrest fun a ha hin => ?_⟩
    obtain ⟨c, hc⟩ := h
    rcases (step_framed hc.wellFormed hfresh hs).2 a hin with hin | hin
    · exact hnew a (List.mem_append_right _ ha) hin
    · exact hdisjoint a hin a ha rfl

/-- Pooling is invisible. As long as the pools hand out no buffer that something points to, a run of
a socket with pooled buffers returns what it would return without pools, whatever the pools held,
and at its end the messages in hand read as they were handed out. No event writes to a buffer that a
stored fragment or a message in hand is in. -/
theorem pooling_invisible (host : ByteOrder) (settings : SocketSettings) (heap : Heap)
    {events : List (Event E)}
    (hfresh : Machine.Along (step host settings) (fun s e => Event.Fresh s e)
      (State.init heap) events) :
    (Machine.run (step host settings) (State.init heap) events).1 =
        (Machine.run (Contents.step host settings) Contents.init events).1 ∧
      ((∃ f, (Machine.run (step host settings) (State.init heap) events).2 = .error f ∧
          (Machine.run (Contents.step host settings) Contents.init events).2 = .error f) ∨
        ∃ s c, (Machine.run (step host settings) (State.init heap) events).2 = .ok s ∧
          (Machine.run (Contents.step host settings) Contents.init events).2 = .ok c ∧
          s.messages.map (BufferView.bytes s.heap) = c.messages ∧
          SameContent (loadAll s.heap s.packages) c.packages) ∧
      Machine.Along (step host settings) (fun s e => ∀ s' o, step host settings s e = .ok (s', o) →
        ∀ b, s.Views b → s'.heap b.owningContainer = s.heap b.owningContainer)
        (State.init heap) events := by
  have hrun := Machine.run_eq_of_agree_along (f := id)
    (fun s c e h hP => step_agree host settings h hP) (shows_init heap) hfresh
  rw [List.map_id] at hrun
  refine ⟨hrun.1, hrun.2.imp_right ?_, ?_⟩
  · rintro ⟨s, c, hs, hc, hshows⟩
    exact ⟨s, c, hs, hc, hshows.messages, hshows.packages⟩
  · have hshows := Machine.Along.of_invariant (I := fun s : State E => ∃ c, Shows s c)
      (fun s e s' o h he hs => exists_shows_of_step h he hs) ⟨_, shows_init heap⟩ hfresh
    refine hshows.mono fun s e hse s' o hs => ?_
    obtain ⟨c, hc⟩ := hse.1
    exact (step_framed hc.wellFormed hse.2 hs).1

/-- A message in one datagram and a fragment are received; the message is let go of, and its buffer
receives the info that belongs to the fragment; the buffer of the fragment then receives a message
of one byte. Both buffers are handed out again with what they held. -/
def recycledEvents : List (Event ℕ) :=
  [.receive 0 1 (fun _ => 0) (fun _ => 0),
    .datagram 0 [69, 67, 65, 76, 5, 0, 0, 0, 3, 0, 0, 0, 5, 0, 0, 0, 1, 0, 0, 0, 2, 0, 0, 0, 8, 9]
      (Nat.le_of_ble_eq_true rfl) 1 (fun _ => 0) 0 ⟨0, 2, fun _ => 0⟩,
    .receive 0 3 (fun _ => 0) (fun _ => 0),
    .datagram 0 [69, 67, 65, 76, 5, 0, 0, 0, 2, 0, 0, 0, 6, 0, 0, 0, 0, 0, 0, 0, 2, 0, 0, 0, 4, 5]
      (Nat.le_of_ble_eq_true rfl) 1 (fun _ => 0) 0 ⟨0, 2, fun _ => 0⟩,
    .release 0, .receive 0 1 (fun _ => 0) (fun _ => 0),
    .datagram 0 [69, 67, 65, 76, 5, 0, 0, 0, 1, 0, 0, 0, 6, 0, 0, 0, 1, 0, 0, 0, 2, 0, 0, 0]
      (Nat.le_of_ble_eq_true rfl) 1 (fun _ => 0) 0 ⟨0, 2, fun _ => 0⟩,
    .receive 0 3 (fun _ => 0) (fun _ => 0),
    .datagram 0 [69, 67, 65, 76, 5, 0, 0, 0, 3, 0, 0, 0, 9, 0, 0, 0, 1, 0, 0, 0, 1, 0, 0, 0, 6]
      (Nat.le_of_ble_eq_true rfl) 1 (fun _ => 0) 0 ⟨0, 1, fun _ => 0⟩]

theorem pooling_invisible_recycled :
    (Machine.run (step .littleEndian ⟨#v[69, 67, 65, 76], 0⟩)
        (State.init fun _ => .ofBytes [1, 2, 3]) recycledEvents).1 =
      [none, some ⟨some [8, 9], .ok⟩, none, some ⟨none, .ok⟩, none, none, some ⟨some [4, 5], .ok⟩,
        none, some ⟨some [6], .ok⟩] ∧
      ∃ s, (Machine.run (step .littleEndian ⟨#v[69, 67, 65, 76], 0⟩)
          (State.init fun _ => .ofBytes [1, 2, 3]) recycledEvents).2 = .ok s ∧
        s.messages.map (BufferView.bytes s.heap) = [[4, 5], [6]] := by
  obtain ⟨houts, hend, -⟩ := pooling_invisible .littleEndian ⟨#v[69, 67, 65, 76], 0⟩
    (fun _ => .ofBytes [1, 2, 3])
    (show Machine.Along _ _ _ recycledEvents by decide +kernel)
  have hcontents : (Machine.run (Contents.step .littleEndian ⟨#v[69, 67, 65, 76], 0⟩) Contents.init
      recycledEvents).2.toOption.map Contents.messages = some [[4, 5], [6]] := by
    decide +kernel
  refine ⟨houts.trans (by decide +kernel), ?_⟩
  obtain ⟨f, -, hfault⟩ | ⟨s, c, hs, hc, hmessages, -⟩ := hend
  · rw [hfault] at hcontents
    cases hcontents
  · rw [hc] at hcontents
    exact ⟨s, hs, hmessages.trans (Option.some.inj hcontents)⟩

end Pooled

end Ecaludp
