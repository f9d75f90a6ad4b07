import Mathlib

/-!
# A heap of blocks

The heap of a C program as the map from addresses to allocated blocks. An allocation asks an
allocator, whose answer comes in as an argument: a null pointer, or any address without a block,
and what the new elements happen to be. A null pointer is `none`.

Each operation has one lemma that gives its postcondition and says when it is an error.
`SameExcept` in it says that no other block has changed.
-/

namespace BlockHeap

/-! ## Postconditions -/

section Ends

universe u

variable {ε : Type*} {β γ : Type u} {allowed : ε → Prop} {x : Except ε β} {post : β → Prop}

/-- The computation ends in a result with the postcondition or in an allowed error. -/
def Ends (allowed : ε → Prop) (x : Except ε β) (post : β → Prop) : Prop :=
  (∀ r, x = .ok r → post r) ∧ ∀ e, x = .error e → allowed e

theorem ends_ok {r : β} (h : post r) : Ends allowed (.ok r) post := by
  refine ⟨fun r' hr => ?_, fun e he => ?_⟩
  · cases hr
    exact h
  · cases he

theorem ends_error {e : ε} (h : allowed e) : Ends allowed (.error e : Except ε β) post := by
  refine ⟨fun r hr => ?_, fun e' he => ?_⟩
  · cases hr
  · cases he
    exact h

/-- The sequence rule: what the second operation may do after whatever the first may do. -/
theorem Ends.bind (h : Ends allowed x post) {f : β → Except ε γ} {post' : γ → Prop}
    (hf : ∀ r, post r → Ends allowed (f r) post') : Ends allowed (x >>= f) post' := by
  rcases x with e | r
  · exact ends_error (h.2 e rfl)
  · exact hf r (h.1 r rfl)

theorem Ends.mono (h : Ends allowed x post) {post' : β → Prop} (hpost : ∀ r, post r → post' r) :
    Ends allowed x post' :=
  ⟨fun r hr => hpost r (h.1 r hr), h.2⟩

end Ends

/-! ## Operations -/

variable {α : Type*}

abbrev Address := ℕ

/-- The allocated blocks. -/
abbrev Heap (α : Type*) := Address → Option (List α)

/-- What makes an operation undefined, and an answer that no allocator gives. -/
inductive Fault where
  /-- a pointer that is not null and has no block -/
  | invalidPointer
  /-- a copy beyond the end of a block -/
  | outOfRange
  /-- a copy of a block onto itself -/
  | overlap
  /-- the allocator returns a block that is allocated already -/
  | notFresh
  deriving DecidableEq, Repr

/-- The answer of the allocator. -/
abbrev Answer (α : Type*) := Option (Address × (ℕ → α))

/-- A call of `malloc` or `realloc`: the pointer that is given back, the size and the answer. -/
structure Request (α : Type*) where
  pointer : Option Address
  size : ℕ
  answer : Answer α

/-- The allocator answers with the address of a block that was not given back. -/
def Request.Taken (h : Heap α) (q : Request α) : Prop :=
  ∃ a fresh, q.answer = some (a, fresh) ∧ h a ≠ none ∧ q.pointer ≠ some a

/-- The allocator has no memory for a block that is not empty. -/
def Request.Denied (q : Request α) : Prop := q.answer = none ∧ 0 < q.size

/-- Elements that were never written. -/
def fill (fresh : ℕ → α) (n : ℕ) : List α := (List.range n).map fresh

@[simp] theorem length_fill (fresh : ℕ → α) (n : ℕ) : (fill fresh n).length = n := by
  rw [fill, List.length_map, List.length_range]

/-- The block of a pointer; a null pointer has an empty one. -/
def block (h : Heap α) : Option Address → Except Fault (List α)
  | none => .ok []
  | some a =>
    match h a with
    | none => .error .invalidPointer
    | some b => .ok b

/-- Put a block at an address that has none. -/
def place (h : Heap α) (a : Address) (b : List α) : Except Fault (Heap α) :=
  if (h a).isSome then .error .notFresh else .ok (Function.update h a (some b))

def malloc (h : Heap α) (size : ℕ) : Answer α → Except Fault (Heap α × Option Address)
  | none => .ok (h, none)
  | some (a, fresh) => do
    let h ← place h a (fill fresh size)
    return (h, some a)

def free (h : Heap α) : Option Address → Except Fault (Heap α)
  | none => .ok h
  | some a => if (h a).isSome then .ok (Function.update h a none) else .error .invalidPointer

/-- The elements of the old block stay, as many as the new one holds; on failure the old block stays
as it is. -/
def realloc (h : Heap α) (p : Option Address) (size : ℕ) :
    Answer α → Except Fault (Heap α × Option Address)
  | none => .ok (h, none)
  | some (a, fresh) => do
    let old ← block h p
    let h ← free h p
    let h ← place h a (old.take size ++ fill fresh (size - old.length))
    return (h, some a)

def memcpy (h : Heap α) (dst src : Address) (n : ℕ) : Except Fault (Heap α) := do
  let old ← block h (some dst)
  let new ← block h (some src)
  if old.length < n ∨ new.length < n then .error .outOfRange
  else if dst = src ∧ 0 < n then .error .overlap
  else .ok (Function.update h dst (some (new.take n ++ old.drop n)))

/-! ## Blocks of pointers -/

/-- The pointer is null and the block empty, or it is the block of the pointer. -/
def Holds (h : Heap α) (p : Option Address) (b : List α) : Prop := block h p = .ok b

/-- The heaps have the same blocks but for those of the two pointers. -/
def SameExcept (p q : Option Address) (h h' : Heap α) : Prop :=
  ∀ a, p ≠ some a → q ≠ some a → h' a = h a

/-- What the pointer points to was not allocated, or belonged to the other pointer. -/
def FreshBut (h : Heap α) (p q : Option Address) : Prop := ∀ a, q = some a → p ≠ some a → h a = none

variable {h h' : Heap α} {p q : Option Address} {b : List α} {a : Address}

theorem holds_none : Holds h none b ↔ b = [] := by
  unfold Holds block
  simp [eq_comm]

theorem holds_some : Holds h (some a) b ↔ h a = some b := by
  simp only [Holds, block]
  rcases h a with _ | c <;> simp

theorem Holds.congr (hb : Holds h p b) (hp : ∀ a, p = some a → h' a = h a) : Holds h' p b := by
  cases p with
  | none => exact holds_none.mpr (holds_none.mp hb)
  | some a => rw [holds_some, hp a rfl, holds_some.mp hb]

theorem SameExcept.refl (p q : Option Address) (h : Heap α) : SameExcept p q h h := fun _ _ _ => rfl

theorem freshBut_self (h : Heap α) (p : Option Address) : FreshBut h p p :=
  fun _ hq hp => absurd hq hp

theorem sameExcept_update (h : Heap α) (a : Address) (b : Option (List α)) :
    SameExcept p (some a) h (Function.update h a b) :=
  fun _ _ hc => Function.update_of_ne (fun heq => hc (congrArg some heq.symm)) _ _

variable {allowed : Fault → Prop}

theorem place_ends (h : Heap α) (a : Address) (b : List α)
    (hallowed : h a ≠ none → allowed .notFresh) :
    Ends allowed (place h a b) fun h' =>
      h a = none ∧ h' a = some b ∧ SameExcept none (some a) h h' := by
  unfold place
  split_ifs with hsome
  · exact ends_error (hallowed (Option.isSome_iff_ne_none.mp hsome))
  · exact ends_ok ⟨by simpa using hsome, Function.update_self _ _ _, sameExcept_update _ _ _⟩

/-- The error of an operation that has asked for a block. -/
def Refused (h : Heap α) (request : Option (Request α)) (e : Fault) : Prop :=
  e = .notFresh ∧ ∃ q ∈ request, q.Taken h

/-- How an operation ends that has asked for a block: on a denied request in one way, and else in
the other. -/
def Outcome (h : Heap α) (request : Option (Request α)) (denied granted : Prop) : Prop :=
  (∀ q ∈ request, ¬ q.Taken h) ∧
    ((∃ q ∈ request, q.Denied) ∧ denied ∨ (∀ q ∈ request, ¬ q.Denied) ∧ granted)

theorem Outcome.imp {request : Option (Request α)} {denied granted denied' granted' : Prop}
    (h' : Outcome h request denied granted) (hdenied : denied → denied')
    (hgranted : granted → granted') : Outcome h request denied' granted' :=
  ⟨h'.1, h'.2.imp (And.imp_right hdenied) (And.imp_right hgranted)⟩

theorem outcome_none {denied granted : Prop} (h' : granted) : Outcome h none denied granted :=
  ⟨nofun, Or.inr ⟨nofun, h'⟩⟩

theorem outcome_denied {q : Request α} {denied granted : Prop} (hanswer : q.answer = none)
    (hsize : 0 < q.size) (h' : denied) : Outcome h (some q) denied granted := by
  refine ⟨fun q' hq' => ?_, Or.inl ⟨⟨q, rfl, hanswer, hsize⟩, h'⟩⟩
  rintro ⟨a, fresh, hsome, -⟩
  cases hq'
  rw [hanswer] at hsome
  cases hsome

theorem outcome_granted {q : Request α} {denied granted : Prop} (htaken : ¬ q.Taken h)
    (hdenied : ¬ q.Denied) (h' : granted) : Outcome h (some q) denied granted := by
  refine ⟨fun q' hq' => ?_, Or.inr ⟨fun q' hq' => ?_, h'⟩⟩
  · cases hq'
    exact htaken
  · cases hq'
    exact hdenied

/-- `malloc` returns a null pointer or a new block. -/
theorem malloc_ends (h : Heap α) (size : ℕ) (answer : Answer α) :
    Ends (Refused h (some ⟨none, size, answer⟩)) (malloc h size answer) fun r =>
      Outcome h (some ⟨none, size, answer⟩) (r = (h, none))
        (FreshBut h none r.2 ∧ (∃ b, b.length = size ∧ Holds r.1 r.2 b) ∧
          SameExcept none r.2 h r.1) := by
  rcases answer with _ | ⟨a, fresh⟩
  · apply ends_ok
    rcases Nat.eq_zero_or_pos size with rfl | hpos
    · refine outcome_granted ?_ (fun hdenied => Nat.lt_irrefl 0 hdenied.2)
        ⟨freshBut_self h none, ⟨[], rfl, holds_none.mpr rfl⟩, SameExcept.refl none none h⟩
      rintro ⟨a, fresh, hsome, -⟩
      cases hsome
    · exact outcome_denied rfl hpos rfl
  · refine (place_ends h a (fill fresh size) fun hne => ?_).bind fun h' hplace => ends_ok ?_
    · exact ⟨rfl, _, rfl, a, fresh, rfl, hne, nofun⟩
    · obtain ⟨hnone, hnew, hsame⟩ := hplace
      refine outcome_granted ?_ (fun hdenied => ?_)
        ⟨fun c hc _ => ?_, ⟨_, length_fill fresh size, holds_some.mpr hnew⟩, hsame⟩
      · rintro ⟨c, fresh', hsome, hne, -⟩
        cases hsome
        exact hne hnone
      · cases hdenied.1
      · cases hc
        exact hnone

theorem free_ends (hb : Holds h p b) :
    Ends allowed (free h p) fun h' => SameExcept p none h h' ∧ ∀ a, p = some a → h' a = none := by
  cases p with
  | none => exact ends_ok ⟨SameExcept.refl _ _ _, nofun⟩
  | some a =>
    rw [free, holds_some.mp hb]
    refine ends_ok ⟨fun c hc _ => sameExcept_update (p := none) h a none c (by simp) hc, ?_⟩
    intro c hc
    cases hc
    exact Function.update_self _ _ _

/-- `realloc` to a larger size returns a null pointer and changes nothing, or the old block with new
elements behind it. -/
theorem realloc_ends {size : ℕ} (hb : Holds h p b) (hsize : b.length < size) (answer : Answer α) :
    Ends (Refused h (some ⟨p, size, answer⟩)) (realloc h p size answer) fun r =>
      Outcome h (some ⟨p, size, answer⟩) (r = (h, none))
        (r.2 ≠ none ∧ FreshBut h p r.2 ∧
          (∃ fresh, Holds r.1 r.2 (b ++ fill fresh (size - b.length))) ∧
          SameExcept p r.2 h r.1) := by
  rcases answer with _ | ⟨a, fresh⟩
  · exact ends_ok (outcome_denied rfl (Nat.zero_lt_of_lt hsize) rfl)
  · show Ends _ (block h p >>= _) _
    rw [show block h p = .ok b from hb]
    refine (free_ends hb).bind fun h₁ ⟨hsame₁, hfreed⟩ =>
      (place_ends h₁ a _ fun hne => ?_).bind fun h₂ hplace => ?_
    · have hpointer : p ≠ some a := fun heq => hne (hfreed a heq)
      exact ⟨rfl, _, rfl, a, fresh, rfl, hsame₁ a hpointer nofun ▸ hne, hpointer⟩
    · obtain ⟨hnone, hnew, hsame₂⟩ := hplace
      rw [List.take_of_length_le (Nat.le_of_lt hsize)] at hnew
      have hfresh : FreshBut h p (some a) := by
        intro c hc hp
        cases hc
        rw [← hsame₁ a hp nofun, hnone]
      refine ends_ok (outcome_granted ?_ (fun hdenied => ?_) ⟨nofun, hfresh,
        ⟨fresh, holds_some.mpr hnew⟩, fun c hp hq => (hsame₂ c nofun hq).trans (hsame₁ c hp nofun)⟩)
      · rintro ⟨c, fresh', hsome, hne, hp⟩
        cases hsome
        exact hne (hfresh a rfl hp)
      · cases hdenied.1

theorem memcpy_ends {dst src : Address} {n : ℕ} {old new : List α} (hold : h dst = some old)
    (hnew : h src = some new) (hne : dst ≠ src) (hn₁ : n ≤ old.length) (hn₂ : n ≤ new.length) :
    Ends allowed (memcpy h dst src n) fun h' =>
      h' dst = some (new.take n ++ old.drop n) ∧ SameExcept none (some dst) h h' := by
  unfold memcpy
  rw [show block h (some dst) = .ok old from holds_some.mpr hold,
    show block h (some src) = .ok new from holds_some.mpr hnew]
  show Ends _ (if old.length < n ∨ new.length < n then _ else _) _
  rw [if_neg (by omega), if_neg fun heq => hne heq.1]
  exact ends_ok ⟨Function.update_self _ _ _, sameExcept_update _ _ _⟩

end BlockHeap
