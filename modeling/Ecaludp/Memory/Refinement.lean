import Ecaludp.Memory.Objects

/-!
# RawMemory objects stand for values

Every object of a run owns a block of its own, of the length of its capacity, and stands for a
`RawMemory` value: the block and the size. On the values the operations are what one expects of
them (`Effect`), and an operation that throws changes none (`store_refines`).
-/

namespace Ecaludp

open BlockHeap

/-! ## Values -/

namespace RawMemory

theorem bytes_reserve (m : RawMemory) (size : ℕ) (fresh : ℕ → UInt8) :
    (m.reserve size fresh).bytes = m.bytes := by
  show (m.reservedData size fresh).take m.size = m.data.take m.size
  unfold reservedData
  split_ifs
  · exact List.take_append_of_le_length m.size_le
  · rfl

theorem capacity_reserve (m : RawMemory) (size : ℕ) (fresh : ℕ → UInt8) :
    (m.reserve size fresh).capacity = max m.capacity size :=
  length_reservedData m size fresh

theorem bytes_resize_take (m : RawMemory) (size : ℕ) (fresh : ℕ → UInt8) :
    (m.resize size fresh).bytes.take (min m.size size) = m.bytes.take (min m.size size) := by
  show ((m.reservedData size fresh).take size).take _ = (m.data.take m.size).take _
  rw [List.take_take, List.take_take, Nat.min_eq_left (Nat.min_le_right _ _),
    Nat.min_eq_left (Nat.min_le_left _ _)]
  unfold reservedData
  split_ifs
  · exact List.take_append_of_le_length (Nat.le_trans (Nat.min_le_left _ _) m.size_le)
  · rfl

theorem capacity_resize (m : RawMemory) (size : ℕ) (fresh : ℕ → UInt8) :
    (m.resize size fresh).capacity = max m.capacity size :=
  length_reservedData m size fresh

end RawMemory

/-! ## Objects -/

namespace RawMemoryObject

/-- The object owns a block of the length of its capacity and stands for the value. -/
structure Denotes (heap : Heap UInt8) (m : RawMemoryObject) (r : RawMemory) : Prop where
  holds : Holds heap m.data r.data
  capacity : m.capacity = r.capacity
  size : m.size = r.size

variable {heap heap' : Heap UInt8} {m other : RawMemoryObject} {r r' : RawMemory}
  {allowed : BlockHeap.Fault → Prop}

theorem Denotes.congr (h : Denotes heap m r) (hheap : ∀ a, m.data = some a → heap' a = heap a) :
    Denotes heap' m r :=
  ⟨h.holds.congr hheap, h.capacity, h.size⟩

theorem denotes_empty (heap : Heap UInt8) : Denotes heap {} .empty :=
  ⟨holds_none.mpr rfl, rfl, rfl⟩

/-- An object that was constructed at a free name: none if the allocation failed. -/
def Constructed (heap : Heap UInt8) (request : Request UInt8) (size capacity : ℕ)
    (bytes : List UInt8 → Prop)
    (result : Heap UInt8 × Option RawMemoryObject × Completion) : Prop :=
  Outcome heap (some request) (result = (heap, none, .badAlloc))
    (∃ m r, result.2 = (some m, .returned) ∧ Denotes result.1 m r ∧ r.size = size ∧
      r.capacity = capacity ∧ bytes r.bytes ∧ FreshBut heap none m.data ∧
      SameExcept none m.data heap result.1)

/-- An object after a member function that gives it the value: as before if an allocation failed. -/
def Modified (heap : Heap UInt8) (m : RawMemoryObject) (request : Option (Request UInt8))
    (value : RawMemory → Prop) (result : Heap UInt8 × RawMemoryObject × Completion) : Prop :=
  Outcome heap request (result = (heap, m, .badAlloc))
    (∃ r, result.2.2 = .returned ∧ Denotes result.1 result.2.1 r ∧ value r ∧
      FreshBut heap m.data result.2.1.data ∧ SameExcept m.data result.2.1.data heap result.1)

/-- The block that `reserve(size)` asks for. -/
def reserveRequest (m : RawMemoryObject) (size : ℕ) (answer : Answer UInt8) :
    Option (Request UInt8) :=
  if size > m.capacity then some ⟨m.data, size, answer⟩ else none

theorem not_null {size : ℕ} {data : Option Address} {b : List UInt8} (hb : b.length = size)
    (hholds : Holds heap data b) : ¬ (size > 0 ∧ data = none) := by
  rintro ⟨hpos, rfl⟩
  rw [holds_none.mp hholds, List.length_nil] at hb
  omega

theorem construct_ends (heap : Heap UInt8) (size : ℕ) (answer : Answer UInt8) :
    Ends (Refused heap (some ⟨none, size, answer⟩)) (construct heap size answer)
      (Constructed heap ⟨none, size, answer⟩ size size fun _ => True) := by
  refine (malloc_ends heap size answer).bind fun (heap', data) hmalloc => ?_
  obtain ⟨htaken, ⟨⟨q, hq, hdenied⟩, heq⟩ | ⟨hdenied, hfresh, ⟨b, hb, hholds⟩, hsame⟩⟩ := hmalloc
  · cases hq
    cases heq
    dsimp only
    rw [if_pos ⟨hdenied.2, rfl⟩]
    exact ends_ok ⟨htaken, Or.inl ⟨⟨_, rfl, hdenied⟩, rfl⟩⟩
  · dsimp only
    rw [if_neg (not_null hb hholds)]
    exact ends_ok ⟨htaken, Or.inr ⟨hdenied, _, ⟨b, size, Nat.le_of_eq hb.symm⟩, rfl,
      ⟨hholds, hb.symm, rfl⟩, rfl, hb, trivial, hfresh, hsame⟩⟩

theorem copyBytes_ends (hm : Denotes heap m r) (hother : Denotes heap other r')
    (hsize : r.size = r'.size) (hne : ∀ a, m.data = some a → other.data ≠ some a) :
    Ends allowed (copyBytes heap m other) fun heap' =>
      ∃ v, Denotes heap' m v ∧ v.size = r'.size ∧ v.capacity = r.capacity ∧ v.bytes = r'.bytes ∧
        SameExcept none m.data heap heap' := by
  have hlength : r'.size ≤ r.data.length := hsize ▸ r.size_le
  have hlength' := r'.size_le
  have hunchanged (hzero : r'.size = 0) : ∃ v, Denotes heap m v ∧ v.size = r'.size ∧
      v.capacity = r.capacity ∧ v.bytes = r'.bytes ∧ SameExcept none m.data heap heap := by
    refine ⟨r, hm, hsize, rfl, ?_, SameExcept.refl _ _ _⟩
    rw [RawMemory.bytes, RawMemory.bytes, hsize, hzero, List.take_zero, List.take_zero]
  have hholds := hm.holds
  have hholds' := hother.holds
  unfold copyBytes
  split
  · rename_i dst src hdst hsrc
    rw [hdst, holds_some] at hholds
    rw [hsrc, holds_some] at hholds'
    rw [hm.size, hsize]
    have hne' : dst ≠ src := fun heq => hne dst hdst (heq ▸ hsrc)
    refine (memcpy_ends hholds hholds' hne' hlength hlength').mono fun heap' hcopied => ?_
    obtain ⟨hblock, hsame⟩ := hcopied
    have hcut : (r'.data.take r'.size).length = r'.size := by
      rw [List.length_take]
      omega
    refine ⟨⟨r'.data.take r'.size ++ r.data.drop r'.size, r'.size, ?_⟩, ⟨?_, ?_, ?_⟩,
      rfl, ?_, ?_, ?_⟩
    · rw [List.length_append, hcut]
      omega
    · rw [hdst, holds_some]
      exact hblock
    · rw [hm.capacity, RawMemory.capacity, RawMemory.capacity, List.length_append, hcut,
        List.length_drop]
      omega
    · rw [hm.size, hsize]
    · rw [RawMemory.capacity, RawMemory.capacity, List.length_append, hcut, List.length_drop]
      omega
    · exact List.take_left' hcut
    · rw [hdst]
      exact hsame
  · rename_i hnull
    -- one of the blocks is empty, so that there is nothing to copy
    refine ends_ok (hunchanged ?_)
    rcases hdata : m.data with _ | dst
    · rw [hdata, holds_none] at hholds
      rw [hholds] at hlength
      exact Nat.le_zero.mp hlength
    · rcases hdata' : other.data with _ | src
      · rw [hdata', holds_none] at hholds'
        rw [hholds'] at hlength'
        exact Nat.le_zero.mp hlength'
      · exact absurd hdata' (hnull dst src hdata)

/-- A block that was free or belonged to another object is not the one of this object. -/
theorem Denotes.ne_of_fresh (hother : Denotes heap other r) {p q : Option Address}
    (hne : ∀ a, p = some a → other.data ≠ some a) (hfresh : FreshBut heap p q) :
    ∀ a, q = some a → other.data ≠ some a := by
  intro a ha ha'
  have hblock := hother.holds
  rw [ha', holds_some, hfresh a ha fun hold => hne a hold ha'] at hblock
  cases hblock

theorem copyConstruct_ends (hother : Denotes heap other r) (answer : Answer UInt8) :
    Ends (Refused heap (some ⟨none, other.capacity, answer⟩)) (copyConstruct heap other answer)
      (Constructed heap ⟨none, other.capacity, answer⟩ r.size r.capacity
        fun bytes => bytes = r.bytes) := by
  refine (malloc_ends heap other.capacity answer).bind fun (heap', data) hmalloc => ?_
  obtain ⟨htaken, ⟨⟨q, hq, hdenied⟩, heq⟩ | ⟨hdenied, hfresh, ⟨b, hb, hholds⟩, hsame⟩⟩ := hmalloc
  · cases hq
    cases heq
    dsimp only
    rw [if_pos ⟨hdenied.2, rfl⟩]
    exact ends_ok ⟨htaken, Or.inl ⟨⟨_, rfl, hdenied⟩, rfl⟩⟩
  · dsimp only
    rw [if_neg (not_null hb hholds)]
    -- the new object has the size of the other one before the bytes are copied
    have hlength : b.length = r.capacity := hb.trans hother.capacity
    have hnew : Denotes heap' ⟨data, other.capacity, other.size⟩
        ⟨b, r.size, r.size_le.trans_eq hlength.symm⟩ := ⟨hholds, hb.symm, hother.size⟩
    have hne := hother.ne_of_fresh (by simp) hfresh
    have hother' : Denotes heap' other r :=
      hother.congr fun a ha => hsame a (by simp) fun hnew => hne a hnew ha
    refine (copyBytes_ends hnew hother' rfl hne).bind fun heap₂ hcopied => ?_
    obtain ⟨v, hv, hsize, hcapacity, hbytes, hsame'⟩ := hcopied
    refine ends_ok ⟨htaken, Or.inr ⟨hdenied, _, v, rfl, hv, hsize, hcapacity.trans hlength, hbytes,
      hfresh, fun a hnone hnew => ?_⟩⟩
    exact (hsame' a hnone hnew).trans (hsame a hnone hnew)

theorem reserve_ends (hm : Denotes heap m r) (size : ℕ) (answer : Answer UInt8) :
    Ends (Refused heap (m.reserveRequest size answer)) (reserve heap m size answer)
      (Modified heap m (m.reserveRequest size answer) fun v =>
        ∃ fresh, v = r.reserve size fresh) := by
  unfold reserve reserveRequest
  split_ifs with hlarger
  · rw [hm.capacity] at hlarger
    refine (realloc_ends hm.holds hlarger answer).bind fun (heap', data) hrealloc => ?_
    obtain ⟨htaken, ⟨hdenied, heq⟩ | ⟨hdenied, hdata, hfresh, ⟨fresh, hholds⟩, hsame⟩⟩ := hrealloc
    · cases heq
      dsimp only
      rw [if_pos ⟨Nat.zero_lt_of_lt hlarger, rfl⟩]
      exact ends_ok ⟨htaken, Or.inl ⟨hdenied, rfl⟩⟩
    · dsimp only
      rw [if_neg fun hnull => hdata hnull.2]
      refine ends_ok ⟨htaken, Or.inr ⟨hdenied, r.reserve size fresh, rfl, ⟨?_, ?_, hm.size⟩,
        ⟨fresh, rfl⟩, hfresh, hsame⟩⟩
      · show Holds heap' data (r.reservedData size fresh)
        rw [RawMemory.reservedData, if_pos hlarger]
        exact hholds
      · rw [RawMemory.capacity_reserve, Nat.max_eq_right (Nat.le_of_lt hlarger)]
  · have hvalue : r.reserve size (fun _ => 0) = r := by
      rw [hm.capacity] at hlarger
      obtain ⟨data, n, hn⟩ := r
      unfold RawMemory.reserve RawMemory.reservedData
      simp only [if_neg hlarger]
    exact ends_ok (outcome_none ⟨r, rfl, hm, ⟨fun _ => 0, hvalue.symm⟩, freshBut_self _ _,
      SameExcept.refl _ _ _⟩)

theorem resize_ends (hm : Denotes heap m r) (size : ℕ) (answer : Answer UInt8) :
    Ends (Refused heap (m.reserveRequest size answer)) (resize heap m size answer)
      (Modified heap m (m.reserveRequest size answer) fun v =>
        ∃ fresh, v = r.resize size fresh) := by
  refine (reserve_ends hm size answer).bind fun (heap', m', completion) hreserved => ?_
  obtain ⟨htaken, ⟨hdenied, heq⟩ | ⟨hdenied, v, hreturned, hv, ⟨fresh, rfl⟩, hfresh, hsame⟩⟩ :=
    hreserved
  · cases heq
    exact ends_ok ⟨htaken, Or.inl ⟨hdenied, rfl⟩⟩
  · obtain rfl : completion = .returned := hreturned
    exact ends_ok ⟨htaken, Or.inr ⟨hdenied, r.resize size fresh, rfl,
      ⟨hv.holds, hv.capacity, rfl⟩, ⟨fresh, rfl⟩, hfresh, hsame⟩⟩

theorem resize_of_le {size : ℕ} (h : size ≤ m.capacity) (answer : Answer UInt8) :
    resize heap m size answer = .ok (heap, { m with size := size }, .returned) := by
  unfold resize reserve
  rw [if_neg (Nat.not_lt.mpr h)]
  rfl

/-- Only the first of the allocations of a copy assignment can fail, and nothing has changed
then. -/
theorem copyAssign_ends (hm : Denotes heap m r) (hother : Denotes heap other r')
    (hne : ∀ a, m.data = some a → other.data ≠ some a) (reserveAnswer resizeAnswer : Answer UInt8) :
    Ends (Refused heap (m.reserveRequest other.capacity reserveAnswer))
      (copyAssign heap m other reserveAnswer resizeAnswer)
      (Modified heap m (m.reserveRequest other.capacity reserveAnswer) fun v =>
        v.size = r'.size ∧ v.bytes = r'.bytes ∧ v.capacity = max r.capacity r'.capacity) := by
  refine (reserve_ends hm other.capacity reserveAnswer).bind
    fun (heap₁, m₁, completion) hreserved => ?_
  obtain ⟨htaken, ⟨hdenied, heq⟩ | ⟨hdenied, v, hreturned, hv, ⟨fresh, rfl⟩, hfresh, hsame⟩⟩ :=
    hreserved
  · cases heq
    exact ends_ok ⟨htaken, Or.inl ⟨hdenied, rfl⟩⟩
  · obtain rfl : completion = .returned := hreturned
    have hcapacity := RawMemory.capacity_reserve r other.capacity fresh
    have hvalue : r'.size ≤ (r.reserve other.capacity fresh).capacity := by
      rw [hcapacity, hother.capacity]
      exact Nat.le_trans r'.size_le (Nat.le_max_right _ _)
    have hsize : other.size ≤ m₁.capacity := by
      rw [hother.size]
      exact hvalue.trans_eq hv.capacity.symm
    simp only [resize_of_le hsize]
    have hv' : Denotes heap₁ { m₁ with size := other.size }
        ⟨(r.reserve other.capacity fresh).data, r'.size, hvalue⟩ :=
      ⟨hv.holds, hv.capacity, hother.size⟩
    have hne₁ := hother.ne_of_fresh hne hfresh
    have hother' : Denotes heap₁ other r' := hother.congr fun a ha =>
      hsame a (fun hold => hne a hold ha) fun hnew => hne₁ a hnew ha
    refine (copyBytes_ends hv' hother' rfl hne₁).bind fun heap₂ hcopied => ?_
    obtain ⟨w, hw, hwsize, hwcapacity, hwbytes, hsame'⟩ := hcopied
    refine ends_ok ⟨htaken, Or.inr ⟨hdenied, w, rfl, hw, ⟨hwsize, hwbytes, ?_⟩, hfresh,
      fun a hold hnew => ?_⟩⟩
    · rw [hwcapacity, ← hother.capacity]
      exact hcapacity
    · exact (hsame' a (by simp) hnew).trans (hsame a hold hnew)

end RawMemoryObject

/-! ## Stores -/

section Stores

variable {N : Type} [DecidableEq N]

/-- What an operation that returns does to the values of the objects. -/
inductive Effect (values : N → Option RawMemory) :
    MemoryOperation N → (N → Option RawMemory) → Prop
  | constructEmpty (x : N) :
    Effect values (.constructEmpty x) (Function.update values x (some .empty))
  | construct (x : N) (size : ℕ) (answer : Answer UInt8) (r : RawMemory) (hsize : r.size = size)
      (hcapacity : r.capacity = size) :
    Effect values (.construct x size answer) (Function.update values x (some r))
  | copyConstruct (x other : N) (answer : Answer UInt8) (source r : RawMemory)
      (hsource : values other = some source) (hsize : r.size = source.size)
      (hcapacity : r.capacity = source.capacity) (hbytes : r.bytes = source.bytes) :
    Effect values (.copyConstruct x other answer) (Function.update values x (some r))
  | moveConstruct (x other : N) (source : RawMemory) (hsource : values other = some source) :
    Effect values (.moveConstruct x other)
      (Function.update (Function.update values x (some source)) other (some .empty))
  | copyAssign (x other : N) (reserveAnswer resizeAnswer : Answer UInt8) (old source r : RawMemory)
      (hne : x ≠ other) (hold : values x = some old) (hsource : values other = some source)
      (hsize : r.size = source.size) (hbytes : r.bytes = source.bytes)
      (hcapacity : r.capacity = max old.capacity source.capacity) :
    Effect values (.copyAssign x other reserveAnswer resizeAnswer)
      (Function.update values x (some r))
  | copyAssignSelf (x : N) (reserveAnswer resizeAnswer : Answer UInt8) :
    Effect values (.copyAssign x x reserveAnswer resizeAnswer) values
  | moveAssign (x other : N) (source : RawMemory) (hne : x ≠ other)
      (hsource : values other = some source) :
    Effect values (.moveAssign x other)
      (Function.update (Function.update values x (some source)) other (some .empty))
  | moveAssignSelf (x : N) : Effect values (.moveAssign x x) values
  | swap (x other : N) :
    Effect values (.swap x other)
      (Function.update (Function.update values x (values other)) other (values x))
  | reserve (x : N) (size : ℕ) (answer : Answer UInt8) (old r : RawMemory)
      (hold : values x = some old) (hsize : r.size = old.size) (hbytes : r.bytes = old.bytes)
      (hcapacity : r.capacity = max old.capacity size) :
    Effect values (.reserve x size answer) (Function.update values x (some r))
  | resize (x : N) (size : ℕ) (answer : Answer UInt8) (old r : RawMemory)
      (hold : values x = some old) (hsize : r.size = size)
      (hbytes : r.bytes.take (min old.size size) = old.bytes.take (min old.size size))
      (hcapacity : r.capacity = max old.capacity size) :
    Effect values (.resize x size answer) (Function.update values x (some r))
  | destruct (x : N) : Effect values (.destruct x) (Function.update values x none)

namespace Store

/-- The program can make the operation: a new object gets a free name, and the objects that the
operation uses are there. -/
def Applicable (s : Store N) : MemoryOperation N → Prop
  | .constructEmpty x | .construct x _ _ => s.objects x = none
  | .copyConstruct x other _ | .moveConstruct x other =>
    s.objects x = none ∧ s.objects other ≠ none
  | .copyAssign x other _ _ | .moveAssign x other | .swap x other =>
    s.objects x ≠ none ∧ s.objects other ≠ none
  | .reserve x _ _ | .resize x _ _ | .destruct x => s.objects x ≠ none

/-- The block that an operation asks for. A copy assignment has room for the size when it has
reserved the capacity, and a self-assignment does nothing. -/
def request (s : Store N) : MemoryOperation N → Option (Request UInt8)
  | .construct _ size answer => some ⟨none, size, answer⟩
  | .copyConstruct _ other answer =>
    (s.objects other).map fun source => ⟨none, source.capacity, answer⟩
  | .copyAssign x other answer _ =>
    if x ≠ other then
      (s.objects x).bind fun m => (s.objects other).bind fun source =>
        m.reserveRequest source.capacity answer
    else
      none
  | .reserve x size answer | .resize x size answer =>
    (s.objects x).bind fun m => m.reserveRequest size answer
  | .constructEmpty _ | .moveConstruct _ _ | .moveAssign _ _ | .swap _ _ | .destruct _ => none

/-- Every object stands for its value, and no block belongs to two objects. -/
structure Represents (s : Store N) (values : N → Option RawMemory) : Prop where
  denotes : ∀ x, Option.Rel (RawMemoryObject.Denotes s.heap) (s.objects x) (values x)
  unique : ∀ x y m n a, s.objects x = some m → s.objects y = some n → m.data = some a →
    n.data = some a → x = y

variable {s : Store N} {values : N → Option RawMemory} {x y : N} {heap' : Heap UInt8}

omit [DecidableEq N] in
theorem represents_empty : (empty : Store N).Represents fun _ => none := by
  refine ⟨fun _ => .none, fun x y m n a hx => ?_⟩
  cases hx

omit [DecidableEq N] in
theorem Represents.exists_value (h : s.Represents values) {m : RawMemoryObject}
    (hx : s.objects x = some m) : ∃ r, values x = some r ∧ m.Denotes s.heap r := by
  have hrel := h.denotes x
  rw [hx] at hrel
  rcases hr : values x with _ | r <;> rw [hr] at hrel <;> cases hrel
  exact ⟨r, rfl, ‹_›⟩

/-- One object changes: its new block is the old one or was free, and no other block changes. -/
theorem Represents.set (h : s.Represents values) {p : Option Address}
    (hp : ∀ a, p = some a → ∀ y ≠ x, ∀ n, s.objects y = some n → n.data ≠ some a)
    {o : Option RawMemoryObject} {v : Option RawMemory}
    (hrel : Option.Rel (RawMemoryObject.Denotes heap') o v)
    (hfresh : FreshBut s.heap p (o.bind RawMemoryObject.data))
    (hsame : SameExcept p (o.bind RawMemoryObject.data) s.heap heap') :
    (Store.set { s with heap := heap' } x o).Represents (Function.update values x v) := by
  -- a block of another object is not the new one
  have hother : ∀ y ≠ x, ∀ n, s.objects y = some n → ∀ a, n.data = some a →
      p ≠ some a ∧ o.bind RawMemoryObject.data ≠ some a := by
    intro y hy n hn a ha
    have hne : ∀ a, p = some a → n.data ≠ some a := fun a heq => hp a heq y hy n hn
    obtain ⟨r, -, hr⟩ := h.exists_value hn
    exact ⟨fun hold => hne a hold ha, fun hnew => hr.ne_of_fresh hne hfresh a hnew ha⟩
  constructor
  · intro y
    by_cases hy : y = x
    · subst hy
      simpa [Store.set] using hrel
    · simp only [Store.set, Function.update_of_ne hy]
      have hrel := h.denotes y
      rcases hn : s.objects y with _ | n <;> rcases hr : values y with _ | r <;>
        rw [hn, hr] at hrel <;> cases hrel
      · exact .none
      · rename_i hd
        exact .some (hd.congr fun a ha =>
          hsame a (hother y hy n hn a ha).1 (hother y hy n hn a ha).2)
  · intro y z m n a hm hn ha ha'
    simp only [Store.set] at hm hn
    by_cases hy : y = x <;> by_cases hz : z = x
    · rw [hy, hz]
    · rw [hy, Function.update_self] at hm
      rw [Function.update_of_ne hz] at hn
      refine absurd ?_ (hother z hz n hn a ha').2
      rw [hm]
      exact ha
    · rw [Function.update_of_ne hy] at hm
      rw [hz, Function.update_self] at hn
      refine absurd ?_ (hother y hy m hm a ha).2
      rw [hn]
      exact ha'
    · rw [Function.update_of_ne hy] at hm
      rw [Function.update_of_ne hz] at hn
      exact h.unique y z m n a hm hn ha ha'

omit [DecidableEq N] in
/-- Objects change places. -/
theorem Represents.comp (h : s.Represents values) (e : Equiv.Perm N) :
    ({ s with objects := s.objects ∘ e } : Store N).Represents (values ∘ e) :=
  ⟨fun x => h.denotes (e x), fun x y m n a hx hy hm hn =>
    e.injective (h.unique (e x) (e y) m n a hx hy hm hn)⟩

/-- A value moves to another place and leaves `e` behind. -/
theorem update_move {γ : Type} {f : N → γ} (hne : x ≠ y) (e : γ) :
    Function.update (Function.update f x (f y)) y e =
      Function.update f x e ∘ Equiv.swap y x := by
  rw [Equiv.comp_swap_eq_update, Function.update_self, Function.update_of_ne hne.symm,
    Function.update_idem]

/-- A value moves to another object, whose block was `p`, and leaves the empty one behind. -/
theorem Represents.move (h : s.Represents values) {p : Option Address}
    (hp : ∀ a, p = some a → ∀ z ≠ x, ∀ n, s.objects z = some n → n.data ≠ some a)
    (hsame : SameExcept p none s.heap heap') (hne : x ≠ y) {m : RawMemoryObject} {r : RawMemory}
    (hm : s.objects y = some m) (hr : values y = some r) :
    ((Store.set { s with heap := heap' } x (some m)).set y (some {})).Represents
      (Function.update (Function.update values x (some r)) y (some .empty)) := by
  have hempty := h.set hp (.some (RawMemoryObject.denotes_empty heap'))
    (fun a ha => by cases ha) hsame
  have hmoved := hempty.comp (Equiv.swap y x)
  rw [← update_move hne, hr] at hmoved
  simp only [Store.set] at hmoved
  rw [← update_move hne, hm] at hmoved
  exact hmoved

/-! ## Operations -/

/-- Why an operation has no result: the program cannot make it, or the allocator has answered with a
block that is allocated already. -/
def Refused (s : Store N) (op : MemoryOperation N) (e : StoreError) : Prop :=
  ¬ s.Applicable op ∧ e = .noSuchOperation ∨
    s.Applicable op ∧ ∃ f, e = .fault f ∧ BlockHeap.Refused s.heap (s.request op) f

/-- The result of an operation: it throws and the store is the same one if its request is denied,
and else it has its effect. -/
def Performed (s : Store N) (values : N → Option RawMemory) (op : MemoryOperation N)
    (r : Store N × Completion) : Prop :=
  s.Applicable op ∧ Outcome s.heap (s.request op) (r = (s, .badAlloc))
    (r.2 = .returned ∧ ∃ values', Effect values op values' ∧ r.1.Represents values')

variable {op : MemoryOperation N} {allowed : StoreError → Prop} {m source : RawMemoryObject}

theorem performed_returned (hop : s.Applicable op) (hrequest : s.request op = none) {s' : Store N}
    {values' : N → Option RawMemory} (heffect : Effect values op values')
    (h' : s'.Represents values') : s.Performed values op (s', .returned) := by
  refine ⟨hop, ?_⟩
  rw [hrequest]
  exact outcome_none ⟨rfl, values', heffect, h'⟩

omit [DecidableEq N] in
theorem get_ends (hallowed : s.objects x = none → allowed .noSuchOperation) :
    Ends allowed (s.get x) fun m => s.objects x = some m := by
  unfold get
  rcases hx : s.objects x with _ | m
  · exact ends_error (hallowed hx)
  · exact ends_ok rfl

omit [DecidableEq N] in
theorem new_ends (hallowed : s.objects x ≠ none → allowed .noSuchOperation) :
    Ends allowed (s.new x) fun _ => s.objects x = none := by
  unfold new
  rcases hx : s.objects x with _ | m
  · exact ends_ok rfl
  · refine ends_error (hallowed ?_)
    rw [hx]
    exact Option.some_ne_none m

omit [DecidableEq N] in
theorem Represents.owner (h : s.Represents values) (hx : s.objects x = some m) :
    ∀ a, m.data = some a → ∀ y ≠ x, ∀ n, s.objects y = some n → n.data ≠ some a :=
  fun a ha y hy n hn ha' => hy (h.unique y x n m a hn hx ha' ha)

omit [DecidableEq N] in
theorem freed_ends (h : s.Represents values) (hx : s.objects x = some m) :
    Ends allowed (s.freed m) fun s' =>
      s'.objects = s.objects ∧ SameExcept m.data none s.heap s'.heap := by
  obtain ⟨r, -, hr⟩ := h.exists_value hx
  have hends : Ends (fun _ => False) (free s.heap m.data) _ := free_ends hr.holds
  obtain ⟨hok, herror⟩ := hends
  unfold freed
  rcases hfree : free s.heap m.data with e | heap'
  · exact absurd hfree fun heq => herror e heq
  · exact ends_ok ⟨rfl, (hok heap' hfree).1⟩

/-- A constructor: it throws and leaves everything as it was, or there is a new object. -/
theorem constructed_ends (h : s.Represents values) (hx : s.objects x = none)
    (hop : s.Applicable op) {q : Request UInt8} (hrequest : s.request op = some q)
    {size capacity : ℕ} {bytes : List UInt8 → Prop}
    (heffect : ∀ v : RawMemory, v.size = size → v.capacity = capacity → bytes v.bytes →
      Effect values op (Function.update values x (some v)))
    {result : Except BlockHeap.Fault (Heap UInt8 × Option RawMemoryObject × Completion)}
    (hresult : Ends (BlockHeap.Refused s.heap (some q)) result
      (RawMemoryObject.Constructed s.heap q size capacity bytes)) :
    Ends (s.Refused op) (s.constructed x result) (s.Performed values op) := by
  obtain ⟨hok, herror⟩ := hresult
  rw [← hrequest] at herror
  rcases result with e | ⟨heap', o, completion⟩
  · exact ends_error (Or.inr ⟨hop, e, rfl, herror e rfl⟩)
  · refine ends_ok ⟨hop, ?_⟩
    rw [hrequest]
    refine (hok _ rfl).imp (fun heq => ?_) ?_
    · cases heq
      rw [Store.set, ← hx, Function.update_eq_self]
    · rintro ⟨m, v, heq, hm, hsize, hcapacity, hbytes, hfresh, hsame⟩
      cases heq
      refine ⟨rfl, _, heffect v hsize hcapacity hbytes, ?_⟩
      apply h.set (p := none) _ (.some hm) hfresh hsame
      intro a ha
      cases ha

/-- A member function: it throws and leaves everything as it was, or the object has a new value. -/
theorem modified_ends (h : s.Represents values) (hx : s.objects x = some m)
    (hop : s.Applicable op) {request : Option (Request UInt8)} (hrequest : s.request op = request)
    {value : RawMemory → Prop}
    (heffect : ∀ v, value v → Effect values op (Function.update values x (some v)))
    {result : Except BlockHeap.Fault (Heap UInt8 × RawMemoryObject × Completion)}
    (hresult : Ends (BlockHeap.Refused s.heap request) result
      (RawMemoryObject.Modified s.heap m request value)) :
    Ends (s.Refused op) (s.modified x result) (s.Performed values op) := by
  obtain ⟨hok, herror⟩ := hresult
  rw [← hrequest] at herror
  rcases result with e | ⟨heap', m', completion⟩
  · exact ends_error (Or.inr ⟨hop, e, rfl, herror e rfl⟩)
  · refine ends_ok ⟨hop, ?_⟩
    rw [hrequest]
    refine (hok _ rfl).imp (fun heq => ?_) ?_
    · cases heq
      rw [Store.set, ← hx, Function.update_eq_self]
    · rintro ⟨v, hreturned, hm, hvalue, hfresh, hsame⟩
      exact ⟨hreturned, _, heffect v hvalue, h.set (h.owner hx) (.some hm) hfresh hsame⟩

theorem constructEmpty_ends (h : s.Represents values) (x : N) :
    Ends (s.Refused (.constructEmpty x)) (s.step (.constructEmpty x))
      (s.Performed values (.constructEmpty x)) := by
  refine (new_ends fun hx => Or.inl ⟨hx, rfl⟩).bind fun _ hx => ends_ok ?_
  have hop : s.Applicable (.constructEmpty x) := hx
  apply performed_returned hop rfl (.constructEmpty x)
  exact h.set (fun a ha => by cases ha) (.some (RawMemoryObject.denotes_empty s.heap))
    (freshBut_self s.heap none) (SameExcept.refl none none s.heap)

theorem construct_ends (h : s.Represents values) (x : N) (size : ℕ) (answer : Answer UInt8) :
    Ends (s.Refused (.construct x size answer)) (s.step (.construct x size answer))
      (s.Performed values (.construct x size answer)) := by
  refine (new_ends fun hx => Or.inl ⟨hx, rfl⟩).bind fun _ hx => ?_
  have hop : s.Applicable (.construct x size answer) := hx
  apply constructed_ends h hx hop rfl _ (RawMemoryObject.construct_ends s.heap size answer)
  intro v hsize hcapacity _
  exact .construct x size answer v hsize hcapacity

theorem copyConstruct_ends (h : s.Represents values) (x other : N) (answer : Answer UInt8) :
    Ends (s.Refused (.copyConstruct x other answer)) (s.step (.copyConstruct x other answer))
      (s.Performed values (.copyConstruct x other answer)) := by
  refine (new_ends fun hx => Or.inl ⟨fun hop => hx hop.1, rfl⟩).bind fun _ hx =>
    (get_ends fun hother => Or.inl ⟨fun hop => hop.2 hother, rfl⟩).bind fun source hsource => ?_
  obtain ⟨r, hr, hdenotes⟩ := h.exists_value hsource
  have hop : s.Applicable (.copyConstruct x other answer) := ⟨hx, by simp [hsource]⟩
  have hrequest : s.request (.copyConstruct x other answer) =
      some ⟨none, source.capacity, answer⟩ := by
    rw [request, hsource, Option.map_some]
  apply constructed_ends h hx hop hrequest _ (RawMemoryObject.copyConstruct_ends hdenotes answer)
  intro v hsize hcapacity hbytes
  exact .copyConstruct x other answer r v hr hsize hcapacity hbytes

theorem moveConstruct_ends (h : s.Represents values) (x other : N) :
    Ends (s.Refused (.moveConstruct x other)) (s.step (.moveConstruct x other))
      (s.Performed values (.moveConstruct x other)) := by
  refine (new_ends fun hx => Or.inl ⟨fun hop => hx hop.1, rfl⟩).bind fun _ hx =>
    (get_ends fun hother => Or.inl ⟨fun hop => hop.2 hother, rfl⟩).bind fun m hm => ends_ok ?_
  obtain ⟨r, hr, -⟩ := h.exists_value hm
  have hne : x ≠ other := by
    rintro rfl
    rw [hx] at hm
    cases hm
  have hop : s.Applicable (.moveConstruct x other) := ⟨hx, by simp [hm]⟩
  apply performed_returned hop rfl (.moveConstruct x other r hr)
  apply h.move (p := none) _ (SameExcept.refl none none s.heap) hne hm hr
  intro a ha
  cases ha

theorem copyAssign_ends (h : s.Represents values) (x other : N)
    (reserveAnswer resizeAnswer : Answer UInt8) :
    Ends (s.Refused (.copyAssign x other reserveAnswer resizeAnswer))
      (s.step (.copyAssign x other reserveAnswer resizeAnswer))
      (s.Performed values (.copyAssign x other reserveAnswer resizeAnswer)) := by
  refine (get_ends fun hx => Or.inl ⟨fun hop => hop.1 hx, rfl⟩).bind fun m hm =>
    (get_ends fun hother => Or.inl ⟨fun hop => hop.2 hother, rfl⟩).bind fun source hsource => ?_
  obtain ⟨r, hr, hdenotes⟩ := h.exists_value hm
  obtain ⟨r', hr', hdenotes'⟩ := h.exists_value hsource
  have hop : s.Applicable (.copyAssign x other reserveAnswer resizeAnswer) :=
    ⟨by simp [hm], by simp [hsource]⟩
  split_ifs with hne
  · have hrequest : s.request (.copyAssign x other reserveAnswer resizeAnswer) =
        m.reserveRequest source.capacity reserveAnswer := by
      rw [request, if_pos hne, hm, hsource, Option.bind_some, Option.bind_some]
    have howner := fun a ha => h.owner hm a ha other (Ne.symm hne) source hsource
    apply modified_ends h hm hop hrequest _ (RawMemoryObject.copyAssign_ends hdenotes hdenotes'
      howner reserveAnswer resizeAnswer)
    rintro v ⟨hsize, hbytes, hcapacity⟩
    exact .copyAssign x other reserveAnswer resizeAnswer r r' v hne hr hr' hsize hbytes hcapacity
  · obtain rfl := not_not.mp hne
    refine ends_ok (performed_returned hop ?_ (.copyAssignSelf x _ _) h)
    rw [request, if_neg hne]

theorem moveAssign_ends (h : s.Represents values) (x other : N) :
    Ends (s.Refused (.moveAssign x other)) (s.step (.moveAssign x other))
      (s.Performed values (.moveAssign x other)) := by
  refine (get_ends fun hx => Or.inl ⟨fun hop => hop.1 hx, rfl⟩).bind fun m hm =>
    (get_ends fun hother => Or.inl ⟨fun hop => hop.2 hother, rfl⟩).bind fun source hsource => ?_
  obtain ⟨r, hr, -⟩ := h.exists_value hsource
  have hop : s.Applicable (.moveAssign x other) := ⟨by simp [hm], by simp [hsource]⟩
  split_ifs with hne
  · refine (freed_ends h hm).bind fun s' hfreed => ends_ok ?_
    obtain ⟨heap', objects⟩ := s'
    obtain ⟨rfl, hsame⟩ := hfreed
    apply performed_returned hop rfl (.moveAssign x other r hne hr)
    exact h.move (h.owner hm) hsame hne hsource hr
  · obtain rfl := not_not.mp hne
    exact ends_ok (performed_returned hop rfl (.moveAssignSelf x) h)

theorem swap_ends (h : s.Represents values) (x other : N) :
    Ends (s.Refused (.swap x other)) (s.step (.swap x other))
      (s.Performed values (.swap x other)) := by
  refine (get_ends fun hx => Or.inl ⟨fun hop => hop.1 hx, rfl⟩).bind fun m hm =>
    (get_ends fun hother => Or.inl ⟨fun hop => hop.2 hother, rfl⟩).bind fun n hn => ends_ok ?_
  have hop : s.Applicable (.swap x other) := ⟨by simp [hm], by simp [hn]⟩
  apply performed_returned hop rfl (.swap x other)
  have hswapped := h.comp (Equiv.swap other x)
  rw [Equiv.comp_swap_eq_update, Equiv.comp_swap_eq_update, hm, hn] at hswapped
  exact hswapped

theorem reserve_ends (h : s.Represents values) (x : N) (size : ℕ) (answer : Answer UInt8) :
    Ends (s.Refused (.reserve x size answer)) (s.step (.reserve x size answer))
      (s.Performed values (.reserve x size answer)) := by
  refine (get_ends fun hx => Or.inl ⟨fun hop => hop hx, rfl⟩).bind fun m hm => ?_
  obtain ⟨r, hr, hdenotes⟩ := h.exists_value hm
  have hop : s.Applicable (.reserve x size answer) := by simp [Applicable, hm]
  have hrequest : s.request (.reserve x size answer) = m.reserveRequest size answer := by
    rw [request, hm, Option.bind_some]
  apply modified_ends h hm hop hrequest _ (RawMemoryObject.reserve_ends hdenotes size answer)
  rintro v ⟨fresh, rfl⟩
  exact .reserve x size answer r (r.reserve size fresh) hr rfl (r.bytes_reserve size fresh)
    (r.capacity_reserve size fresh)

theorem resize_ends (h : s.Represents values) (x : N) (size : ℕ) (answer : Answer UInt8) :
    Ends (s.Refused (.resize x size answer)) (s.step (.resize x size answer))
      (s.Performed values (.resize x size answer)) := by
  refine (get_ends fun hx => Or.inl ⟨fun hop => hop hx, rfl⟩).bind fun m hm => ?_
  obtain ⟨r, hr, hdenotes⟩ := h.exists_value hm
  have hop : s.Applicable (.resize x size answer) := by simp [Applicable, hm]
  have hrequest : s.request (.resize x size answer) = m.reserveRequest size answer := by
    rw [request, hm, Option.bind_some]
  apply modified_ends h hm hop hrequest _ (RawMemoryObject.resize_ends hdenotes size answer)
  rintro v ⟨fresh, rfl⟩
  exact .resize x size answer r (r.resize size fresh) hr rfl (r.bytes_resize_take size fresh)
    (r.capacity_resize size fresh)

theorem destruct_ends (h : s.Represents values) (x : N) :
    Ends (s.Refused (.destruct x)) (s.step (.destruct x)) (s.Performed values (.destruct x)) := by
  refine (get_ends fun hx => Or.inl ⟨fun hop => hop hx, rfl⟩).bind fun m hm =>
    (freed_ends h hm).bind fun s' hfreed => ends_ok ?_
  obtain ⟨heap', objects⟩ := s'
  obtain ⟨rfl, hsame⟩ := hfreed
  have hop : s.Applicable (.destruct x) := by simp [Applicable, hm]
  apply performed_returned hop rfl (.destruct x)
  exact h.set (h.owner hm) .none (fun a ha => by cases ha) hsame

theorem step_ends (h : s.Represents values) (op : MemoryOperation N) :
    Ends (s.Refused op) (s.step op) (s.Performed values op) := by
  cases op with
  | constructEmpty x => exact constructEmpty_ends h x
  | construct x size answer => exact construct_ends h x size answer
  | copyConstruct x other answer => exact copyConstruct_ends h x other answer
  | moveConstruct x other => exact moveConstruct_ends h x other
  | copyAssign x other reserveAnswer resizeAnswer =>
    exact copyAssign_ends h x other reserveAnswer resizeAnswer
  | moveAssign x other => exact moveAssign_ends h x other
  | swap x other => exact swap_ends h x other
  | reserve x size answer => exact reserve_ends h x size answer
  | resize x size answer => exact resize_ends h x size answer
  | destruct x => exact destruct_ends h x

/-! ## Runs -/

/-- An operation on a store that stands for the values. It is an error if the program cannot make it
or the allocator answers with a block that is allocated already; it throws, and the store stays as
it is, if it asks for a block and there is none; and in all other cases it returns with its
effect. -/
structure Performs (s : Store N) (values : N → Option RawMemory) (op : MemoryOperation N) :
    Prop where
  inapplicable : ¬ s.Applicable op → s.step op = .error .noSuchOperation
  taken : s.Applicable op → (∃ q ∈ s.request op, q.Taken s.heap) →
    s.step op = .error (.fault .notFresh)
  denied : s.Applicable op → (∃ q ∈ s.request op, q.Denied) → s.step op = .ok (s, .badAlloc)
  returned : s.Applicable op → (∀ q ∈ s.request op, ¬ q.Taken s.heap ∧ ¬ q.Denied) →
    ∃ s' values', s.step op = .ok (s', .returned) ∧ Effect values op values' ∧ s'.Represents values'

theorem step_performs (h : s.Represents values) (op : MemoryOperation N) :
    s.Performs values op := by
  obtain ⟨hok, herror⟩ := step_ends h op
  rcases hstep : s.step op with e | r
  · obtain ⟨hop, rfl⟩ | ⟨hop, f, rfl, rfl, q, hq, htaken⟩ := herror e hstep
    · exact ⟨fun _ => hstep, fun h => absurd h hop, fun h => absurd h hop, fun h => absurd h hop⟩
    · refine ⟨fun h => absurd hop h, fun _ _ => hstep, fun _ hdenied => ?_, fun _ hgranted => ?_⟩
      · obtain ⟨q', hq', hanswer, -⟩ := hdenied
        obtain ⟨a, fresh, hsome, -⟩ := htaken
        rw [Option.mem_unique hq' hq, hsome] at hanswer
        cases hanswer
      · exact absurd htaken (hgranted q hq).1
  · obtain ⟨hop, htaken, hend⟩ := hok r hstep
    refine ⟨fun h => absurd hop h, fun _ ⟨q, hq, h⟩ => absurd h (htaken q hq),
      fun _ ⟨q, hq, hdenied⟩ => ?_, fun _ hgranted => ?_⟩
    · obtain ⟨-, rfl⟩ | ⟨h, -⟩ := hend
      · exact hstep
      · exact absurd hdenied (h q hq)
    · obtain ⟨⟨q, hq, h⟩, -⟩ | ⟨-, hreturned, values', heffect, h'⟩ := hend
      · exact absurd h (hgranted q hq).2
      · refine ⟨r.1, values', ?_, heffect, h'⟩
        rw [hstep, ← hreturned]

theorem represents_of_run {operations : List (MemoryOperation N)}
    (hrun : (Machine.run step empty operations).2 = .ok s) : ∃ values, s.Represents values := by
  apply Machine.invariant_of_run (I := fun s : Store N => ∃ values, s.Represents values) _
    ⟨_, represents_empty⟩ hrun
  rintro s op s' completion ⟨values, h⟩ hstep
  obtain ⟨-, -, ⟨-, heq⟩ | ⟨-, -, values', -, h'⟩⟩ := (step_ends h op).1 _ hstep
  · cases heq
    exact ⟨values, h⟩
  · exact ⟨values', h'⟩

/-- RawMemory: in every run of operations with any answers of the allocator nothing undefined
happens; each object owns a block of its own, of the length of its capacity, and its size is at most
that; and every further operation has its effect on the values, or throws and changes nothing. A run
stops only at an operation that the program cannot make, or at an answer that no allocator gives. -/
theorem store_refines (operations : List (MemoryOperation N)) :
    (∀ s, (Machine.run step empty operations).2 = .ok s →
        ∃ values, s.Represents values ∧ ∀ op, s.Performs values op) ∧
      ∀ e, (Machine.run step empty operations).2 = .error e →
        ∃ before op after s, operations = before ++ op :: after ∧
          (Machine.run step empty before).2 = .ok s ∧ s.Refused op e := by
  constructor
  · intro s hrun
    obtain ⟨values, h⟩ := represents_of_run hrun
    exact ⟨values, h, step_performs h⟩
  · intro e hrun
    obtain ⟨before, op, after, s, heq, hbefore, hstep⟩ := Machine.exists_step_of_run_error hrun
    obtain ⟨values, h⟩ := represents_of_run hbefore
    exact ⟨before, op, after, s, heq, hbefore, (step_ends h op).2 e hstep⟩

end Store

end Stores

namespace Store

/-- A run with two failed allocations, a self-assignment, a move, an object of no size, and a copy
into a block that was given back. -/
def mixedRun : List (MemoryOperation ℕ) :=
  [.construct 0 2 (some (100, fun i => if i = 0 then 1 else 2)),
    .copyConstruct 1 0 (some (200, fun _ => 9)), .reserve 1 4 none,
    .resize 1 4 (some (300, fun _ => 7)), .copyAssign 0 1 none none, .copyAssign 0 0 none none,
    .constructEmpty 2, .moveAssign 2 1, .construct 3 0 none,
    .copyAssign 0 2 (some (200, fun _ => 5)) none]

theorem store_refines_mixedRun :
    (Machine.run step empty mixedRun).1 = [.returned, .returned, .badAlloc, .returned, .badAlloc,
        .returned, .returned, .returned, .returned, .returned] ∧
      ∃ s values, (Machine.run step empty mixedRun).2 = .ok s ∧ s.Represents values ∧
        s.objects 1 = some {} ∧ (values 0).map RawMemory.bytes = some [1, 2, 7, 7] ∧
        s.step (.reserve 0 9 none) = .ok (s, .badAlloc) := by
  refine ⟨rfl, ?_⟩
  rcases hrun : (Machine.run step empty mixedRun).2 with e | s
  · cases hrun
  · obtain ⟨values, h, hstep⟩ := (store_refines mixedRun).1 s hrun
    cases hrun
    refine ⟨_, values, rfl, h, rfl, ?_, ?_⟩
    · obtain ⟨r, hr, hdenotes⟩ := h.exists_value (x := 0) rfl
      have hdata : some [1, 2, 7, 7] = some r.data :=
        (holds_some (a := 200)).mp hdenotes.holds
      have hsize : 4 = r.size := hdenotes.size
      rw [hr, Option.map_some, RawMemory.bytes, ← Option.some.inj hdata, ← hsize]
      rfl
    · exact (hstep (.reserve 0 9 none)).denied (Option.some_ne_none _) ⟨_, rfl, rfl, by decide⟩

end Store

end Ecaludp
