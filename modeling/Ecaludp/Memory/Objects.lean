import Ecaludp.Memory
import Ecaludp.Lib.BlockHeap
import Ecaludp.Lib.Machine

/-!
# RawMemory objects on the heap

The members and the operations of the class `RawMemory` as the source has them, with pointers to
blocks on a heap and allocations that may fail. A `Store` is a set of objects with the heap they
share; `Store.step` is one operation on it. `RawMemory` values are what the objects stand for.
-/

namespace Ecaludp

open BlockHeap

/-- The members of a `RawMemory` object. -/
structure RawMemoryObject where
  data : Option Address := none
  capacity : ℕ := 0
  size : ℕ := 0
  deriving DecidableEq, Repr

/-- How an operation ends. -/
inductive Completion where
  | returned
  /-- it throws `std::bad_alloc` -/
  | badAlloc
  deriving DecidableEq, Repr

namespace RawMemoryObject

/-- `RawMemory(size_t size)`. -/
def construct (heap : Heap UInt8) (size : ℕ) (answer : Answer UInt8) :
    Except BlockHeap.Fault (Heap UInt8 × Option RawMemoryObject × Completion) := do
  let (heap, data) ← malloc heap size answer
  if size > 0 ∧ data = none then
    return (heap, none, .badAlloc)
  else
    return (heap, some ⟨data, size, size⟩, .returned)

/-- The `memcpy` that the copy operations end with. -/
def copyBytes (heap : Heap UInt8) (m other : RawMemoryObject) :
    Except BlockHeap.Fault (Heap UInt8) :=
  match m.data, other.data with
  | some dst, some src => memcpy heap dst src m.size
  | _, _ => .ok heap

/-- `RawMemory(const RawMemory& other)`. -/
def copyConstruct (heap : Heap UInt8) (other : RawMemoryObject) (answer : Answer UInt8) :
    Except BlockHeap.Fault (Heap UInt8 × Option RawMemoryObject × Completion) := do
  let (heap, data) ← malloc heap other.capacity answer
  let m : RawMemoryObject := ⟨data, other.capacity, other.size⟩
  if m.capacity > 0 ∧ data = none then
    return (heap, none, .badAlloc)
  else
    let heap ← copyBytes heap m other
    return (heap, some m, .returned)

/-- `reserve(size)`. -/
def reserve (heap : Heap UInt8) (m : RawMemoryObject) (size : ℕ) (answer : Answer UInt8) :
    Except BlockHeap.Fault (Heap UInt8 × RawMemoryObject × Completion) :=
  if size > m.capacity then do
    let (heap, newData) ← realloc heap m.data size answer
    if size > 0 ∧ newData = none then
      return (heap, m, .badAlloc)
    else
      return (heap, { m with data := newData, capacity := size }, .returned)
  else
    .ok (heap, m, .returned)

/-- `resize(size)`. -/
def resize (heap : Heap UInt8) (m : RawMemoryObject) (size : ℕ) (answer : Answer UInt8) :
    Except BlockHeap.Fault (Heap UInt8 × RawMemoryObject × Completion) := do
  let (heap, m, completion) ← reserve heap m size answer
  match completion with
  | .badAlloc => return (heap, m, .badAlloc)
  | .returned => return (heap, { m with size := size }, .returned)

/-- `operator=(const RawMemory& other)` for another object; its two allocations get their answers in
order. -/
def copyAssign (heap : Heap UInt8) (m other : RawMemoryObject)
    (reserveAnswer resizeAnswer : Answer UInt8) :
    Except BlockHeap.Fault (Heap UInt8 × RawMemoryObject × Completion) := do
  let (heap, m, completion) ← reserve heap m other.capacity reserveAnswer
  match completion with
  | .badAlloc => return (heap, m, .badAlloc)
  | .returned =>
    let (heap, m, completion) ← resize heap m other.size resizeAnswer
    match completion with
    | .badAlloc => return (heap, m, .badAlloc)
    | .returned =>
      let heap ← copyBytes heap m other
      return (heap, m, .returned)

end RawMemoryObject

/-- An operation on named objects. -/
inductive MemoryOperation (N : Type) where
  /-- `RawMemory()` -/
  | constructEmpty (x : N)
  | construct (x : N) (size : ℕ) (answer : Answer UInt8)
  | copyConstruct (x other : N) (answer : Answer UInt8)
  | moveConstruct (x other : N)
  | copyAssign (x other : N) (reserveAnswer resizeAnswer : Answer UInt8)
  | moveAssign (x other : N)
  | swap (x other : N)
  | reserve (x : N) (size : ℕ) (answer : Answer UInt8)
  | resize (x : N) (size : ℕ) (answer : Answer UInt8)
  | destruct (x : N)

/-- Why an operation has no result: it makes the program undefined, or it constructs an object that
exists or uses one that does not. -/
inductive StoreError where
  | fault (f : BlockHeap.Fault)
  | noSuchOperation
  deriving DecidableEq, Repr

/-- Objects and the heap they share. -/
structure Store (N : Type) where
  heap : Heap UInt8
  objects : N → Option RawMemoryObject

namespace Store

variable {N : Type} [DecidableEq N]

/-- No objects, no blocks. -/
def empty : Store N := ⟨fun _ => none, fun _ => none⟩

/-- An object that is there. -/
def get (s : Store N) (x : N) : Except StoreError RawMemoryObject :=
  match s.objects x with
  | some m => .ok m
  | none => .error .noSuchOperation

/-- A name that is free for a new object. -/
def new (s : Store N) (x : N) : Except StoreError Unit :=
  match s.objects x with
  | some _ => .error .noSuchOperation
  | none => .ok ()

def set (s : Store N) (x : N) (m : Option RawMemoryObject) : Store N :=
  { s with objects := Function.update s.objects x m }

/-- A constructor that throws leaves no object. -/
def constructed (s : Store N) (x : N)
    (r : Except BlockHeap.Fault (Heap UInt8 × Option RawMemoryObject × Completion)) :
    Except StoreError (Store N × Completion) :=
  match r with
  | .ok (heap, m, completion) => .ok (set { s with heap := heap } x m, completion)
  | .error f => .error (.fault f)

/-- The object after a member function, also after one that throws. -/
def modified (s : Store N) (x : N)
    (r : Except BlockHeap.Fault (Heap UInt8 × RawMemoryObject × Completion)) :
    Except StoreError (Store N × Completion) :=
  match r with
  | .ok (heap, m, completion) => .ok (set { s with heap := heap } x (some m), completion)
  | .error f => .error (.fault f)

/-- `free(data_)`. -/
def freed (s : Store N) (m : RawMemoryObject) : Except StoreError (Store N) :=
  match free s.heap m.data with
  | .ok heap => .ok { s with heap := heap }
  | .error f => .error (.fault f)

/-- One operation. -/
def step (s : Store N) : MemoryOperation N → Except StoreError (Store N × Completion)
  | .constructEmpty x => do
    s.new x
    return (s.set x (some {}), .returned)
  | .construct x size answer => do
    s.new x
    s.constructed x (RawMemoryObject.construct s.heap size answer)
  | .copyConstruct x other answer => do
    s.new x
    let other ← s.get other
    s.constructed x (RawMemoryObject.copyConstruct s.heap other answer)
  | .moveConstruct x other => do
    s.new x
    let m ← s.get other
    return ((s.set x (some m)).set other (some {}), .returned)
  | .copyAssign x other reserveAnswer resizeAnswer => do
    let m ← s.get x
    let source ← s.get other
    if x ≠ other then
      s.modified x (RawMemoryObject.copyAssign s.heap m source reserveAnswer resizeAnswer)
    else
      return (s, .returned)
  | .moveAssign x other => do
    let m ← s.get x
    let source ← s.get other
    if x ≠ other then
      let s ← s.freed m
      return ((s.set x (some source)).set other (some {}), .returned)
    else
      return (s, .returned)
  | .swap x other => do
    let m ← s.get x
    let n ← s.get other
    return ((s.set x (some n)).set other (some m), .returned)
  | .reserve x size answer => do
    let m ← s.get x
    s.modified x (m.reserve s.heap size answer)
  | .resize x size answer => do
    let m ← s.get x
    s.modified x (m.resize s.heap size answer)
  | .destruct x => do
    let m ← s.get x
    let s ← s.freed m
    return (s.set x none, .returned)

end Store

end Ecaludp
