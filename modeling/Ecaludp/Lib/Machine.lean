import Mathlib

/-!
# Runs of fallible machines

A machine is a step function `σ → ι → Except ε (σ × ο)`: from a state and an input it faults or
goes on with a new state and an output. `run` feeds it a list of inputs; the outputs are those of
the steps before the first fault, the end is that fault or the last state.

Three rules carry step facts to runs: an invariant whose steps never fault (`run_ok_of_invariant`),
two machines that agree step by step (`run_eq_of_agree`), and a machine that, on the selected
inputs, is a smaller machine running beside it (`run_project`).
-/

namespace Machine

variable {σ τ ι κ ο ε : Type*}

/-- Feed the inputs to the machine, one after the other. -/
def run (step : σ → ι → Except ε (σ × ο)) : σ → List ι → List ο × Except ε σ
  | s, [] => ([], .ok s)
  | s, i :: is =>
    match step s i with
    | .error e => ([], .error e)
    | .ok (s', o) => (o :: (run step s' is).1, (run step s' is).2)

/-- `P` holds of the state and the input of every step that the run takes. -/
def Along (step : σ → ι → Except ε (σ × ο)) (P : σ → ι → Prop) : σ → List ι → Prop
  | _, [] => True
  | s, i :: is => P s i ∧ ∀ s' o, step s i = .ok (s', o) → Along step P s' is

/-- Two step results that fault alike, or give one output and related states. -/
inductive Agree (R : σ → τ → Prop) : Except ε (σ × ο) → Except ε (τ × ο) → Prop
  | error (e : ε) : Agree R (.error e) (.error e)
  | ok {s : σ} {t : τ} (o : ο) (h : R s t) : Agree R (.ok (s, o)) (.ok (t, o))

theorem Agree.map {σ' τ' : Type*} {R : σ → τ → Prop} {R' : σ' → τ' → Prop} {f : σ → σ'}
    {g : τ → τ'} {x : Except ε (σ × ο)} {y : Except ε (τ × ο)} (h : Agree R x y)
    (hfg : ∀ s t, R s t → R' (f s) (g t)) :
    Agree R' (x.map fun r => (f r.1, r.2)) (y.map fun r => (g r.1, r.2)) := by
  cases h with
  | error e => exact .error e
  | ok o h => exact .ok o (hfg _ _ h)

theorem Agree.of_map_output {ο' : Type*} {R : σ → τ → Prop} {g : ο → ο'} (hg : Function.Injective g)
    {x : Except ε (σ × ο)} {y : Except ε (τ × ο)}
    (h : Agree R (x.map fun r => (r.1, g r.2)) (y.map fun r => (r.1, g r.2))) : Agree R x y := by
  rcases x with e | ⟨s, o⟩ <;> rcases y with e' | ⟨t, o'⟩
  · cases h
    exact .error e
  · cases h
  · cases h
  · change Agree R (.ok (s, g o)) (.ok (t, g o')) at h
    generalize ho : g o = p at h
    generalize ho' : g o' = p' at h
    cases h with
    | ok _ hR =>
      cases hg (ho.trans ho'.symm)
      exact .ok o hR

theorem map_eq_ok {α β : Type*} {f : α → β} {x : Except ε α} {b : β} :
    x.map f = .ok b ↔ ∃ a, x = .ok a ∧ f a = b := by
  cases x with
  | error e => simp [Except.map]
  | ok a => simp [Except.map]

section Run

variable {step : σ → ι → Except ε (σ × ο)} {s s' : σ} {i : ι} {o : ο}

@[simp] theorem run_nil : run step s [] = ([], .ok s) := rfl

theorem run_cons_ok (h : step s i = .ok (s', o)) (is : List ι) :
    run step s (i :: is) = (o :: (run step s' is).1, (run step s' is).2) := by
  rw [run, h]

theorem run_cons_error {e : ε} (h : step s i = .error e) (is : List ι) :
    run step s (i :: is) = ([], .error e) := by
  rw [run, h]

theorem run_append {is : List ι} (js : List ι) (h : (run step s is).2 = .ok s') :
    run step s (is ++ js) = ((run step s is).1 ++ (run step s' js).1, (run step s' js).2) := by
  induction is generalizing s with
  | nil =>
    cases h
    rfl
  | cons i is ih =>
    rcases hi : step s i with e | ⟨s₁, o⟩
    · rw [run_cons_error hi] at h
      cases h
    · rw [run_cons_ok hi] at h
      rw [List.cons_append, run_cons_ok hi, run_cons_ok hi, ih h]
      rfl

theorem exists_step_of_run_concat {is : List ι} (h : (run step s (is ++ [i])).2 = .ok s') :
    ∃ s₁ o, (run step s is).2 = .ok s₁ ∧ step s₁ i = .ok (s', o) := by
  induction is generalizing s with
  | nil =>
    rcases hi : step s i with e | ⟨s₁, o⟩
    · rw [List.nil_append, run_cons_error hi] at h
      cases h
    · rw [List.nil_append, run_cons_ok hi] at h
      cases h
      exact ⟨s, o, rfl, hi⟩
  | cons j js ih =>
    rcases hj : step s j with e | ⟨s₁, o⟩
    · rw [List.cons_append, run_cons_error hj] at h
      cases h
    · rw [List.cons_append, run_cons_ok hj] at h
      rw [run_cons_ok hj]
      exact ih h

theorem exists_step_of_run_error {is : List ι} {e : ε} (h : (run step s is).2 = .error e) :
    ∃ before i after s', is = before ++ i :: after ∧ (run step s before).2 = .ok s' ∧
      step s' i = .error e := by
  induction is generalizing s with
  | nil => cases h
  | cons i is ih =>
    rcases hi : step s i with e' | ⟨s₁, o⟩
    · rw [run_cons_error hi] at h
      cases h
      exact ⟨[], i, is, s, rfl, rfl, hi⟩
    · rw [run_cons_ok hi] at h
      obtain ⟨before, j, after, s', rfl, hbefore, hstep⟩ := ih h
      refine ⟨i :: before, j, after, s', rfl, ?_, hstep⟩
      rw [run_cons_ok hi]
      exact hbefore

theorem length_run {is : List ι} (h : (run step s is).2 = .ok s') :
    (run step s is).1.length = is.length := by
  induction is generalizing s with
  | nil => rfl
  | cons i is ih =>
    rcases hi : step s i with e | ⟨s₁, o⟩
    · rw [run_cons_error hi] at h
      cases h
    · rw [run_cons_ok hi] at h ⊢
      rw [List.length_cons, List.length_cons, ih h]

theorem length_run_le (step : σ → ι → Except ε (σ × ο)) (s : σ) (is : List ι) :
    (run step s is).1.length ≤ is.length := by
  induction is generalizing s with
  | nil => exact Nat.le_refl 0
  | cons i is ih =>
    rcases hi : step s i with e | ⟨s', o⟩
    · rw [run_cons_error hi]
      exact Nat.zero_le _
    · rw [run_cons_ok hi]
      exact Nat.succ_le_succ (ih s')

theorem Along.mono {P Q : σ → ι → Prop} (hPQ : ∀ s i, P s i → Q s i) {is : List ι}
    (h : Along step P s is) : Along step Q s is := by
  induction is generalizing s with
  | nil => trivial
  | cons i is ih => exact ⟨hPQ _ _ h.1, fun s' o hs => ih (h.2 s' o hs)⟩

theorem Along.and {P Q : σ → ι → Prop} {is : List ι} (hP : Along step P s is)
    (hQ : Along step Q s is) : Along step (fun s i => P s i ∧ Q s i) s is := by
  induction is generalizing s with
  | nil => trivial
  | cons i is ih => exact ⟨⟨hP.1, hQ.1⟩, fun s' o hs => ih (hP.2 s' o hs) (hQ.2 s' o hs)⟩

instance Along.decidable {P : σ → ι → Prop} [∀ s i, Decidable (P s i)] :
    ∀ s is, Decidable (Along step P s is)
  | _, [] => .isTrue trivial
  | s, i :: is =>
    match h : step s i with
    | .error e => decidable_of_iff (P s i) (by simp [Along, h])
    | .ok (s', o) =>
      have : Decidable (Along step P s' is) := Along.decidable s' is
      decidable_of_iff (P s i ∧ Along step P s' is) (by simp [Along, h])

theorem Along.of_forall_mem {Q : ι → Prop} {is : List ι} (h : ∀ i ∈ is, Q i) :
    Along step (fun _ i => Q i) s is := by
  induction is generalizing s with
  | nil => trivial
  | cons i is ih =>
    exact ⟨h i List.mem_cons_self, fun s' o _ => ih fun j hj => h j (List.mem_cons_of_mem _ hj)⟩

theorem Along.of_take {P : σ → ι → Prop} {is : List ι}
    (h : ∀ k (hk : k < is.length) s', (run step s (is.take k)).2 = .ok s' → P s' is[k]) :
    Along step P s is := by
  induction is generalizing s with
  | nil => trivial
  | cons i is ih =>
    refine ⟨h 0 (Nat.zero_lt_succ _) s rfl, fun s₁ o hs => ih fun k hk s' hrun => ?_⟩
    refine h (k + 1) (Nat.succ_lt_succ hk) s' ?_
    rw [List.take_succ_cons, run_cons_ok hs]
    exact hrun

theorem Along.of_invariant {I : σ → Prop} {P : σ → ι → Prop}
    (hstep : ∀ s i s' o, I s → P s i → step s i = .ok (s', o) → I s') {is : List ι} (h : I s)
    (hP : Along step P s is) : Along step (fun s i => I s ∧ P s i) s is := by
  induction is generalizing s with
  | nil => trivial
  | cons i is ih =>
    exact ⟨⟨h, hP.1⟩, fun s' o hs => ih (hstep s i s' o h hP.1 hs) (hP.2 s' o hs)⟩

/-- Invariant rule: if every step from a state of `I` on an input allowed there goes on in `I`, a
run of allowed inputs does not fault, and each of its steps starts in `I`. -/
theorem run_ok_of_invariant {I : σ → Prop} {P : σ → ι → Prop}
    (hstep : ∀ s i, I s → P s i → ∃ s' o, step s i = .ok (s', o) ∧ I s') {is : List ι}
    (h : I s) (hP : Along step P s is) :
    (∃ s', (run step s is).2 = .ok s' ∧ I s') ∧ Along step (fun s _ => I s) s is := by
  induction is generalizing s with
  | nil => exact ⟨⟨s, rfl, h⟩, trivial⟩
  | cons i is ih =>
    obtain ⟨s₁, o, hs, h₁⟩ := hstep s i h hP.1
    have hrec := ih h₁ (hP.2 s₁ o hs)
    refine ⟨?_, h, fun s' o' hs' => ?_⟩
    · rw [run_cons_ok hs]
      exact hrec.1
    · rw [hs] at hs'
      cases hs'
      exact hrec.2

theorem run_ok_of_step_ok (hstep : ∀ s i, ∃ r, step s i = .ok r) (s : σ) (is : List ι) :
    ∃ s', (run step s is).2 = .ok s' := by
  induction is generalizing s with
  | nil => exact ⟨s, rfl⟩
  | cons i is ih =>
    obtain ⟨⟨s', o⟩, hs⟩ := hstep s i
    rw [run_cons_ok hs]
    exact ih s'

theorem invariant_of_run {I : σ → Prop}
    (hstep : ∀ s i s' o, I s → step s i = .ok (s', o) → I s') {is : List ι} (h : I s)
    (hrun : (run step s is).2 = .ok s') : I s' := by
  induction is generalizing s with
  | nil =>
    cases hrun
    exact h
  | cons i is ih =>
    rcases hi : step s i with e | ⟨s₁, o⟩
    · rw [run_cons_error hi] at hrun
      cases hrun
    · rw [run_cons_ok hi] at hrun
      exact ih (hstep s i s₁ o h hi) hrun

/-- A run whose steps from the states of an invariant fault in an allowed way only does so, too. -/
theorem error_of_run {I : σ → Prop} {allowed : ε → Prop}
    (hstep : ∀ s i s' o, I s → step s i = .ok (s', o) → I s')
    (herror : ∀ s i e, I s → step s i = .error e → allowed e) {is : List ι} {e : ε} (h : I s)
    (hrun : (run step s is).2 = .error e) : allowed e := by
  induction is generalizing s with
  | nil => cases hrun
  | cons i is ih =>
    rcases hi : step s i with e' | ⟨s₁, o⟩
    · rw [run_cons_error hi] at hrun
      cases hrun
      exact herror s i e h hi
    · rw [run_cons_ok hi] at hrun
      exact ih (hstep s i s₁ o h hi) hrun

theorem forall_mem_run {I : σ → Prop} {Q : ο → Prop} {is : List ι}
    (hstep : ∀ s, ∀ i ∈ is, ∀ s' o, I s → step s i = .ok (s', o) → I s' ∧ Q o) (h : I s) :
    ∀ o ∈ (run step s is).1, Q o := by
  induction is generalizing s with
  | nil => simp
  | cons i is ih =>
    rcases hi : step s i with e | ⟨s₁, o₁⟩
    · rw [run_cons_error hi]
      simp
    · obtain ⟨h₁, hQ⟩ := hstep s i (by simp) s₁ o₁ h hi
      rw [run_cons_ok hi]
      intro o ho
      rcases List.mem_cons.mp ho with rfl | ho
      · exact hQ
      · exact ih (fun s j hj => hstep s j (List.mem_cons_of_mem _ hj)) h₁ o ho

end Run

section Relate

variable {step : σ → ι → Except ε (σ × ο)} {step' : τ → κ → Except ε (τ × ο)} {s : σ} {t : τ}

/-- Simulation rule: machines that agree step by step on translated inputs give the same outputs,
and fault alike or end in related states. -/
theorem run_eq_of_agree {R : σ → τ → Prop} {f : ι → κ} {is : List ι}
    (hstep : ∀ s t, ∀ i ∈ is, R s t → Agree R (step s i) (step' t (f i))) (h : R s t) :
    (run step s is).1 = (run step' t (is.map f)).1 ∧
      ((∃ e, (run step s is).2 = .error e ∧ (run step' t (is.map f)).2 = .error e) ∨
        ∃ s' t', (run step s is).2 = .ok s' ∧ (run step' t (is.map f)).2 = .ok t' ∧ R s' t') := by
  induction is generalizing s t with
  | nil => exact ⟨rfl, Or.inr ⟨s, t, rfl, rfl, h⟩⟩
  | cons i is ih =>
    have hi := hstep s t i (by simp) h
    rw [List.map_cons]
    rcases hs : step s i with e | ⟨s₁, o⟩ <;> rcases ht : step' t (f i) with e' | ⟨t₁, o'⟩ <;>
      rw [hs, ht] at hi
    · cases hi
      rw [run_cons_error hs, run_cons_error ht]
      exact ⟨rfl, Or.inl ⟨e, rfl, rfl⟩⟩
    · cases hi
    · cases hi
    · cases hi with
      | ok _ h₁ =>
        obtain ⟨houts, hend⟩ := ih (fun s t j hj => hstep s t j (List.mem_cons_of_mem _ hj)) h₁
        rw [run_cons_ok hs, run_cons_ok ht]
        exact ⟨congrArg (o :: ·) houts, hend⟩

/-- Simulation rule for allowed inputs: the machines need to agree only on the inputs that are
allowed where they come. -/
theorem run_eq_of_agree_along {R : σ → τ → Prop} {P : σ → ι → Prop} {f : ι → κ}
    (hstep : ∀ s t i, R s t → P s i → Agree R (step s i) (step' t (f i))) (h : R s t) {is : List ι}
    (hP : Along step P s is) :
    (run step s is).1 = (run step' t (is.map f)).1 ∧
      ((∃ e, (run step s is).2 = .error e ∧ (run step' t (is.map f)).2 = .error e) ∨
        ∃ s' t', (run step s is).2 = .ok s' ∧ (run step' t (is.map f)).2 = .ok t' ∧ R s' t') := by
  induction is generalizing s t with
  | nil => exact ⟨rfl, Or.inr ⟨s, t, rfl, rfl, h⟩⟩
  | cons i is ih =>
    have hi := hstep s t i h hP.1
    rw [List.map_cons]
    rcases hs : step s i with e | ⟨s₁, o⟩ <;> rcases ht : step' t (f i) with e' | ⟨t₁, o'⟩ <;>
      rw [hs, ht] at hi
    · cases hi
      rw [run_cons_error hs, run_cons_error ht]
      exact ⟨rfl, Or.inl ⟨e, rfl, rfl⟩⟩
    · cases hi
    · cases hi
    · cases hi with
      | ok _ h₁ =>
        obtain ⟨houts, hend⟩ := ih h₁ (hP.2 s₁ o hs)
        rw [run_cons_ok hs, run_cons_ok ht]
        exact ⟨congrArg (o :: ·) houts, hend⟩

/-- Termination rule: if every allowed step from a state of `I` goes on in `I` with a smaller
measure, a run of allowed inputs has no more steps than the measure of the first state. -/
theorem length_le_of_measure {I : σ → Prop} {P : ι → Prop} {measure : σ → ℕ}
    (hstep : ∀ s i s' o, I s → P i → step s i = .ok (s', o) → I s' ∧ measure s' < measure s)
    {is : List ι} (h : I s)
    (hP : ∀ i ∈ is, P i) (hrun : (run step s is).2 = .ok s') : is.length ≤ measure s := by
  induction is generalizing s with
  | nil => exact Nat.zero_le _
  | cons i is ih =>
    rcases hi : step s i with e | ⟨s₁, o⟩
    · rw [run_cons_error hi] at hrun
      cases hrun
    · rw [run_cons_ok hi] at hrun
      obtain ⟨h₁, hlt⟩ := hstep s i s₁ o h (hP i List.mem_cons_self) hi
      have hle := ih h₁ (fun j hj => hP j (List.mem_cons_of_mem _ hj)) hrun
      rw [List.length_cons]
      omega

/-- Deletion rule: an input whose step leaves a state related to the one before it can be deleted
from a run: the later outputs stay the same, and so does a fault. -/
theorem run_delete {step : σ → ι → Except ε (σ × ο)} {R : σ → σ → Prop} {s s₁ s₂ : σ}
    {before after : List ι} {i : ι} {o : ο} (hbefore : (run step s before).2 = .ok s₁)
    (hi : step s₁ i = .ok (s₂, o)) (hR : R s₂ s₁)
    (hstep : ∀ s t, ∀ j ∈ after, R s t → Agree R (step s j) (step t j)) :
    (run step s (before ++ after)).1 =
        (run step s (before ++ i :: after)).1.eraseIdx before.length ∧
      ∀ e, (run step s (before ++ after)).2 = .error e ↔
        (run step s (before ++ i :: after)).2 = .error e := by
  have hagree := run_eq_of_agree (f := id) hstep hR
  rw [List.map_id] at hagree
  obtain ⟨houts, hend⟩ := hagree
  rw [run_append _ hbefore, run_append _ hbefore, run_cons_ok hi, ← length_run hbefore]
  refine ⟨?_, fun e => ?_⟩
  · rw [List.eraseIdx_append_of_length_le (Nat.le_refl _), Nat.sub_self, List.eraseIdx_cons_zero,
      houts]
  · rcases hend with ⟨e', h₁, h₂⟩ | ⟨s', t', h₁, h₂, -⟩
    · show (run step s₁ after).2 = _ ↔ (run step s₂ after).2 = _
      rw [h₁, h₂]
    · show (run step s₁ after).2 = _ ↔ (run step s₂ after).2 = _
      rw [h₁, h₂]
      simp

theorem exists_step_of_getElem?_run {step : σ → ι → Except ε (σ × ο)} {s : σ}
    {before after : List ι} {i : ι} {o : ο}
    (h : (run step s (before ++ i :: after)).1[before.length]? = some o) :
    ∃ s₁ s₂, (run step s before).2 = .ok s₁ ∧ step s₁ i = .ok (s₂, o) := by
  induction before generalizing s with
  | nil =>
    rcases hi : step s i with e | ⟨s₂, o'⟩
    · rw [List.nil_append, run_cons_error hi] at h
      cases h
    · rw [List.nil_append, run_cons_ok hi] at h
      cases h
      exact ⟨s, s₂, rfl, hi⟩
  | cons j before ih =>
    rcases hj : step s j with e | ⟨s₁, o'⟩
    · rw [List.cons_append, run_cons_error hj] at h
      cases h
    · rw [List.cons_append, run_cons_ok hj, List.length_cons, List.getElem?_cons_succ] at h
      obtain ⟨s₁', s₂, hrun, hi⟩ := ih h
      refine ⟨s₁', s₂, ?_, hi⟩
      rw [run_cons_ok hj]
      exact hrun

/-- The outputs of a run at the selected inputs. -/
def outputsAt (sel : ι → Bool) (is : List ι) (os : List ο) : List ο :=
  ((is.zip os).filter fun p => sel p.1).map Prod.snd

theorem outputsAt_cons_of_pos {sel : ι → Bool} {i : ι} (h : sel i = true) (is : List ι) (o : ο)
    (os : List ο) : outputsAt sel (i :: is) (o :: os) = o :: outputsAt sel is os := by
  unfold outputsAt
  rw [List.zip_cons_cons, List.filter_cons_of_pos (by exact h), List.map_cons]

theorem outputsAt_cons_of_neg {sel : ι → Bool} {i : ι} (h : sel i = false) (is : List ι) (o : ο)
    (os : List ο) : outputsAt sel (i :: is) (o :: os) = outputsAt sel is os := by
  unfold outputsAt
  rw [List.zip_cons_cons, List.filter_cons_of_neg (by simp [h])]

theorem perm_flatMap_filter {α : Type*} (index : α → Option ℕ) {n : ℕ} {l : List α}
    (h : ∀ a ∈ l, ∃ k < n, index a = some k) :
    ((List.range n).flatMap fun k => l.filter fun a => index a == some k).Perm l := by
  induction n generalizing l with
  | zero =>
    have hnil : l = [] := List.eq_nil_iff_forall_not_mem.mpr fun a ha => by
      obtain ⟨k, hk, -⟩ := h a ha
      exact absurd hk (Nat.not_lt_zero k)
    rw [hnil]
    exact .refl _
  | succ n ih =>
    -- those of the last index, and the others
    have hrest := ih (l := l.filter fun a => !(index a == some n)) fun a ha => by
      obtain ⟨hmem, hne⟩ := List.mem_filter.mp ha
      obtain ⟨k, hk, hindex⟩ := h a hmem
      refine ⟨k, ?_, hindex⟩
      have : k ≠ n := by
        rintro rfl
        simp [hindex] at hne
      omega
    have hfilter : ∀ k ∈ List.range n,
        (l.filter fun a => !(index a == some n)).filter (fun a => index a == some k) =
          l.filter fun a => index a == some k := by
      intro k hk
      rw [List.filter_filter]
      refine List.filter_congr fun a _ => ?_
      have : k ≠ n := Nat.ne_of_lt (List.mem_range.mp hk)
      by_cases hindex : index a = some k
      · simp [hindex, this]
      · simp [hindex]
    rw [List.range_succ, List.flatMap_append, List.flatMap_singleton,
      ← List.flatMap_congr hfilter]
    exact ((hrest.append_right _).trans List.perm_append_comm).trans (List.filter_append_perm _ l)

/-- What a run returns, sorted by the index of the inputs. -/
theorem perm_flatMap_outputsAt {β : Type*} (g : ο → Option β) (index : ι → Option ℕ) {n : ℕ}
    {is : List ι} {os : List ο} (hlength : is.length = os.length)
    (h : ∀ p ∈ is.zip os, g p.2 ≠ none → ∃ k < n, index p.1 = some k) :
    ((List.range n).flatMap fun k =>
      (outputsAt (fun i => index i == some k) is os).filterMap g).Perm (os.filterMap g) := by
  have hperm := (perm_flatMap_filter (fun p : ι × ο => index p.1) (n := n)
    (l := (is.zip os).filter fun p => (g p.2).isSome) fun p hp => by
      obtain ⟨hmem, hsome⟩ := List.mem_filter.mp hp
      exact h p hmem (Option.isSome_iff_ne_none.mp hsome)).filterMap fun p => g p.2
  have hall : (is.zip os).filterMap (fun p => g p.2) = os.filterMap g := by
    conv_rhs => rw [← List.map_snd_zip (Nat.le_of_eq hlength.symm), List.filterMap_map]
    rfl
  have hsome : ((is.zip os).filter fun p => (g p.2).isSome).filterMap (fun p => g p.2) =
      (is.zip os).filterMap fun p => g p.2 := by
    rw [List.filterMap_filter]
    refine List.filterMap_congr fun p _ => ?_
    cases g p.2 <;> rfl
  rw [hsome, hall, List.filterMap_flatMap] at hperm
  refine (List.Perm.of_eq ?_).trans hperm
  refine List.flatMap_congr fun k _ => ?_
  unfold outputsAt
  rw [List.filterMap_map, List.filterMap_filter, List.filter_filter, List.filterMap_filter]
  refine List.filterMap_congr fun p _ => ?_
  cases hg : g p.2 <;> simp [hg]

/-- Shadow rule: a machine that follows every step of a run, and repeats the outputs at the selected
inputs, has in the end repeated just these. -/
theorem run_shadow {step' : τ → κ → Except ε (τ × Option ο)} {R : σ → τ → Prop} {sel : ι → Bool}
    {f : ι → κ}
    (hstep : ∀ s t i s' o, R s t → step s i = .ok (s', o) →
      ∃ t', step' t (f i) = .ok (t', if sel i then some o else none) ∧ R s' t')
    {is : List ι} {s₁ : σ} (h : R s t) (hrun : (run step s is).2 = .ok s₁) :
    (∃ t₁, (run step' t (is.map f)).2 = .ok t₁ ∧ R s₁ t₁) ∧
      (run step' t (is.map f)).1.reduceOption = outputsAt sel is (run step s is).1 := by
  induction is generalizing s t with
  | nil =>
    cases hrun
    exact ⟨⟨t, rfl, h⟩, rfl⟩
  | cons i is ih =>
    rcases hs : step s i with e | ⟨s', o⟩
    · rw [run_cons_error hs] at hrun
      cases hrun
    · rw [run_cons_ok hs] at hrun
      obtain ⟨t', ht, hR⟩ := hstep s t i s' o h hs
      obtain ⟨hend, houts⟩ := ih hR hrun
      rw [List.map_cons, run_cons_ok hs, run_cons_ok ht]
      refine ⟨hend, ?_⟩
      cases hb : sel i with
      | true =>
        rw [outputsAt_cons_of_pos hb, if_pos rfl, List.reduceOption_cons_of_some, houts]
      | false =>
        rw [outputsAt_cons_of_neg hb, if_neg Bool.false_ne_true,
          List.reduceOption_cons_of_none, houts]

/-- Projection rule: a run whose steps on the selected inputs are steps of a second machine on
related inputs, and whose other steps leave that machine's state alone, gives at the selected inputs
the outputs of the second machine. -/
theorem run_project {step' : τ → κ → Except ε (τ × ο)} {R : σ → τ → Prop} {Q : ι → κ → Prop}
    {sel : ι → Bool}
    (hsel : ∀ s t i j s' o, R s t → sel i = true → Q i j → step s i = .ok (s', o) →
      ∃ t', step' t j = .ok (t', o) ∧ R s' t')
    (hother : ∀ s t i s' o, R s t → sel i = false → step s i = .ok (s', o) → R s' t)
    {is : List ι} {js : List κ} (hjs : List.Forall₂ Q (is.filter sel) js) {s₁ : σ} (h : R s t)
    (hrun : (run step s is).2 = .ok s₁) :
    (∃ t₁, (run step' t js).2 = .ok t₁ ∧ R s₁ t₁) ∧
      outputsAt sel is (run step s is).1 = (run step' t js).1 := by
  induction is generalizing s t js with
  | nil =>
    cases hrun
    cases hjs
    exact ⟨⟨t, rfl, h⟩, rfl⟩
  | cons i is ih =>
    rcases hs : step s i with e | ⟨s', o⟩
    · rw [run_cons_error hs] at hrun
      cases hrun
    · rw [run_cons_ok hs] at hrun
      rw [run_cons_ok hs]
      cases hb : sel i with
      | true =>
        rw [List.filter_cons_of_pos hb] at hjs
        cases hjs with
        | cons hij hjs =>
          obtain ⟨t', ht, hR⟩ := hsel s t i _ s' o h hb hij hs
          obtain ⟨hend, houts⟩ := ih hjs hR hrun
          rw [run_cons_ok ht, outputsAt_cons_of_pos hb, houts]
          exact ⟨hend, rfl⟩
      | false =>
        rw [List.filter_cons_of_neg (by simp [hb])] at hjs
        rw [outputsAt_cons_of_neg hb]
        exact ih hjs (hother s t i s' o h hb hs) hrun

end Relate

end Machine
