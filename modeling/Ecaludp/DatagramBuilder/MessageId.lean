import Ecaludp.DatagramBuilder.Wire
import Ecaludp.Lib.Machine
import Ecaludp.Lib.Xorshift

/-!
# Message ids

The step of the id generator is a bijection on its states, so that a run of the builder walks on a
cycle through the seeded state, and the all-zero state, a fixed point, is on no such cycle. As the
state is made of the last three ids, no three ids in a row are zero (`messageIds_not_degenerate`).
-/

namespace Ecaludp

open ByteOrder

/-! ## The generator -/

namespace Xorshf96

/-- The generator before the first message; the seed is the reading of a clock. -/
def seeded (x : UInt32) : Xorshf96 := ⟨x, 362436069, 521288629⟩

/-- The all-zero state. -/
def zero : Xorshf96 := ⟨0, 0, 0⟩

/-- The state after one more id. -/
def next (s : Xorshf96) : Xorshf96 := (xorshf96 s).2

attribute [ext] Xorshf96

instance : Finite Xorshf96 :=
  Finite.of_injective (fun s : Xorshf96 => (s.x.toFin, s.y.toFin, s.z.toFin)) fun s t h => by
    obtain ⟨hx, hy, hz⟩ : s.x.toFin = t.x.toFin ∧ s.y.toFin = t.y.toFin ∧
      s.z.toFin = t.z.toFin := by
      simpa using h
    exact Xorshf96.ext (UInt32.toFin_inj.mp hx) (UInt32.toFin_inj.mp hy) (UInt32.toFin_inj.mp hz)

/-- What the generator does to its first word. -/
def scramble (x : UInt32) : UInt32 :=
  let x := x ^^^ (x <<< 16)
  let x := x ^^^ (x >>> 5)
  x ^^^ (x <<< 1)

theorem next_eq (s : Xorshf96) : s.next = ⟨s.y, s.z, (scramble s.x ^^^ s.y) ^^^ s.z⟩ := rfl

theorem scramble_injective : Function.Injective scramble := by
  intro x y hxy
  have hbits := congrArg UInt32.toBitVec hxy
  unfold scramble at hbits
  simp only [UInt32.toBitVec_xor, UInt32.toBitVec_shiftLeft, UInt32.toBitVec_shiftRight] at hbits
  have h₁ := Xorshift.xor_shiftLeft_injective (k := 1) (by omega) hbits
  have h₂ := Xorshift.xor_ushiftRight_injective (k := 5) (by omega) h₁
  have h₃ := Xorshift.xor_shiftLeft_injective (k := 16) (by omega) h₂
  exact UInt32.toBitVec_inj.mp h₃

theorem next_injective : Function.Injective next := by
  intro s t h
  rw [next_eq, next_eq, mk.injEq] at h
  obtain ⟨hy, hz, hlast⟩ := h
  rw [hy, hz, UInt32.xor_left_inj, UInt32.xor_left_inj] at hlast
  exact Xorshf96.ext (scramble_injective hlast) hy hz

theorem next_bijective : Function.Bijective next :=
  Finite.injective_iff_bijective.mp next_injective

theorem iterate_next_zero (n : ℕ) : next^[n] zero = zero :=
  Function.iterate_fixed (by decide) n

theorem iterate_next_ne_zero {s : Xorshf96} (h : s ≠ zero) (n : ℕ) : next^[n] s ≠ zero := by
  intro hzero
  rw [← iterate_next_zero n] at hzero
  exact h (next_injective.iterate n hzero)

theorem seeded_ne_zero (x : UInt32) : seeded x ≠ zero := by
  intro h
  have hy : (362436069 : UInt32) = 0 := congrArg Xorshf96.y h
  exact absurd hy (by decide)

/-- Pure periodicity: from every state of its cycle the generator comes back to the start. -/
theorem exists_iterate_next_eq (s : Xorshf96) (n : ℕ) : ∃ m, next^[m] (next^[n] s) = s := by
  have hperiodic := next_injective.mem_periodicPts s
  have hmem := Function.iterate_mem_periodicOrbit hperiodic n
  have hstart := Function.self_mem_periodicOrbit hperiodic
  rw [← Function.periodicOrbit_apply_iterate_eq hperiodic n,
    Function.mem_periodicOrbit_iff] at hstart
  · exact hstart
  · exact next_injective.mem_periodicPts _

/-- The state consists of the last three ids. -/
theorem iterate_next_add_three (s : Xorshf96) (n : ℕ) :
    next^[n + 3] s = ⟨(next^[n + 1] s).z, (next^[n + 2] s).z, (next^[n + 3] s).z⟩ := by
  rw [Function.iterate_succ_apply', Function.iterate_succ_apply' next (n + 1),
    Function.iterate_succ_apply' next n]
  rfl

end Xorshf96

/-! ## The ids of a run of the builder -/

/-- The arguments of a call of `create_datagram_list`. -/
structure BuildCall where
  bufferSequence : List (List UInt8)
  maxDatagramSize : ℕ
  magicHeaderBytes : Magic

/-- The id in the header of a fragmentation info, the first datagram of a fragmented message. -/
def messageIdOf (host : ByteOrder) (datagrams : DatagramList) : Option UInt32 :=
  datagrams.head?.bind fun d =>
    if host.le32toh d.header.type = DatagramType.fragmentedMessageInfo.toUInt32 then
      some (host.le32toh d.header.id.toUInt32)
    else none

/-- One call, with the message id it draws. The exception for a too small maximum size reaches the
caller, who may go on. -/
def buildStep (host : ByteOrder) (rng : Xorshf96) (call : BuildCall) :
    Except BuildError (Xorshf96 × Option UInt32) :=
  match createDatagramList host call.bufferSequence call.maxDatagramSize
    call.magicHeaderBytes rng with
  | .ok (datagrams, rng) => .ok (rng, messageIdOf host datagrams)
  | .error (.invalidArgument _) => .ok (rng, none)
  | .error e => .error e

theorem messageIdOf_nonFragmented (host : ByteOrder) (buffers : List (List UInt8)) (magic : Magic) :
    messageIdOf host [createNonFragmentedDatagram host buffers magic] = none := by
  show (if host.le32toh (host.htole32 _) = _ then _ else none) = none
  rw [le32toh_htole32, if_neg (by decide)]

theorem messageIdOf_fragmentList (host : ByteOrder) (magic : Magic) (messageId num len : UInt32)
    (pieces : List (List (List UInt8))) :
    messageIdOf host (fragmentList host magic messageId num len pieces) = some messageId := by
  show (if host.le32toh (host.htole32 _) = _ then
    some (host.le32toh (host.htole32 messageId).toInt32.toUInt32) else none) = some messageId
  rw [le32toh_htole32, if_pos rfl, UInt32.toUInt32_toInt32, le32toh_htole32]

theorem buildStep_eq_ok {host : ByteOrder} {rng rng' : Xorshf96} {call : BuildCall}
    {o : Option UInt32} (h : buildStep host rng call = .ok (rng', o)) :
    rng' = rng ∧ o = none ∨ rng' = rng.next ∧ o = some rng.next.z := by
  unfold buildStep at h
  rcases hbuild : createDatagramList host call.bufferSequence call.maxDatagramSize
      call.magicHeaderBytes rng with e | ⟨datagrams, rng₁⟩
  · rw [hbuild] at h
    cases e with
    | invalidArgument what =>
      cases h
      exact Or.inl ⟨rfl, rfl⟩
    | signedOverflow => cases h
    | divisionByZero => cases h
    | nontermination => cases h
  · rw [hbuild] at h
    cases h
    obtain ⟨-, ⟨-, rfl, rfl⟩ | ⟨-, rfl, num, pieces, -, rfl, -⟩⟩ := eq_of_createDatagramList hbuild
    · exact Or.inl ⟨rfl, messageIdOf_nonFragmented host _ _⟩
    · exact Or.inr ⟨rfl, messageIdOf_fragmentList host _ _ _ _ _⟩

/-- The first `n` ids from a state on. -/
def ids (s : Xorshf96) (n : ℕ) : List UInt32 :=
  (List.range n).map fun i => (Xorshf96.next^[i + 1] s).z

theorem ids_succ (s : Xorshf96) (n : ℕ) : ids s (n + 1) = s.next.z :: ids s.next n := by
  unfold ids
  rw [List.range_succ_eq_map, List.map_cons, List.map_map]
  rfl

/-- The ids drawn by a run are the first ones of the generator, and its state is the one after so
many steps. -/
theorem ids_of_run (host : ByteOrder) (rng : Xorshf96) (calls : List BuildCall) :
    ∃ n, (Machine.run (buildStep host) rng calls).1.reduceOption = ids rng n ∧
      ∀ s, (Machine.run (buildStep host) rng calls).2 = .ok s → s = Xorshf96.next^[n] rng := by
  induction calls generalizing rng with
  | nil =>
    refine ⟨0, rfl, fun s hs => ?_⟩
    cases hs
    rfl
  | cons call calls ih =>
    rcases hstep : buildStep host rng call with e | ⟨rng', o⟩
    · rw [Machine.run_cons_error hstep]
      refine ⟨0, rfl, fun s hs => ?_⟩
      cases hs
    · rw [Machine.run_cons_ok hstep]
      obtain ⟨n, hids, hend⟩ := ih rng'
      rcases buildStep_eq_ok hstep with ⟨rfl, rfl⟩ | ⟨rfl, rfl⟩
      · exact ⟨n, by rw [List.reduceOption_cons_of_none, hids], hend⟩
      · refine ⟨n + 1, ?_, hend⟩
        rw [List.reduceOption_cons_of_some, hids, ids_succ]

theorem not_zeros_infix_ids {s : Xorshf96} (h : s ≠ .zero) (n : ℕ) : ¬ [0, 0, 0] <:+: ids s n := by
  rintro ⟨before, after, heq⟩
  have hzero : ∀ j < 3, (Xorshf96.next^[before.length + j + 1] s).z = 0 := by
    intro j hj
    have hlength := congrArg List.length heq
    have hget := congrArg (·[before.length + j]?) heq
    simp only [ids, List.length_append, List.length_cons, List.length_nil, List.length_map,
      List.length_range] at hlength
    simp only [ids, List.getElem?_map] at hget
    rw [List.getElem?_range (by omega), List.append_assoc, List.getElem?_append_right (by omega),
      Nat.add_sub_cancel_left, List.getElem?_append_left (by simpa using hj)] at hget
    interval_cases j <;> simpa using hget.symm
  refine Xorshf96.iterate_next_ne_zero h (before.length + 3) ?_
  rw [Xorshf96.iterate_next_add_three, hzero 0 (by omega), hzero 1 (by omega), hzero 2 (by omega)]
  rfl

/-- The generator does not degenerate. Its step is a bijection; from every seed its states run round
a cycle through the seeded one, which avoids the zero state; and no run of the builder draws three
zero ids in a row. -/
theorem messageIds_not_degenerate (host : ByteOrder) (x : UInt32) :
    Function.Bijective Xorshf96.next ∧
      (∃ n > 0, Xorshf96.next^[n] (.seeded x) = .seeded x) ∧
      (∀ n, ∃ m, Xorshf96.next^[m] (Xorshf96.next^[n] (.seeded x)) = .seeded x) ∧
      (∀ n, Xorshf96.next^[n] (.seeded x) ≠ .zero) ∧
      ∀ calls : List BuildCall,
        (∀ s, (Machine.run (buildStep host) (.seeded x) calls).2 = .ok s →
          s = Xorshf96.next^[(Machine.run (buildStep host) (.seeded x) calls).1.reduceOption.length]
            (.seeded x)) ∧
        ¬ [0, 0, 0] <:+: (Machine.run (buildStep host) (.seeded x) calls).1.reduceOption := by
  have hne := Xorshf96.seeded_ne_zero x
  refine ⟨Xorshf96.next_bijective, Xorshf96.next_injective.mem_periodicPts _,
    Xorshf96.exists_iterate_next_eq _, Xorshf96.iterate_next_ne_zero hne, fun calls => ?_⟩
  obtain ⟨n, hids, hend⟩ := ids_of_run host (.seeded x) calls
  rw [hids]
  refine ⟨?_, not_zeros_infix_ids hne n⟩
  rw [ids, List.length_map, List.length_range]
  exact hend

example : ids (.seeded 123456789) 4 = [1588437975, 2268752316, 3071397075, 1066942004] := by decide

-- ids are not checked against those in use: here the third one is the first one again
example : ids (.seeded 3205420856) 3 = [3071397075, 1854277304, 3071397075] := by decide

end Ecaludp
