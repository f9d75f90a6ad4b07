import Ecaludp.Lib.Machine

/-!
# Pulling and pushing

Inputs that change a state and sometimes give an output can be handled in two ways. A caller may
pull: each call takes inputs until one gives an output. Or the inputs are pushed: each is handled by
a callback when it arrives, as long as outputs are wanted. The two give the same outputs after the
same inputs (`pushed_eq_pulled`), those of a run of the callback (`exists_run_of_pushed`).
-/

namespace Pull

variable {σ τ ι κ ρ π ε : Type*}

/-- A call that takes inputs until one gives an output, which it returns with the inputs that are
left; it waits when there are no more inputs. -/
def next (step : σ → ι → Except ε (σ × Option ρ)) :
    σ → List ι → Except ε (σ × Option (ρ × List ι))
  | s, [] => .ok (s, none)
  | s, i :: is =>
    match step s i with
    | .error e => .error e
    | .ok (s', some r) => .ok (s', some (r, is))
    | .ok (s', none) => next step s' is

/-- At most `n` calls, the last of them one whose output stops the caller: the state, the output and
the inputs left after each, and the state and the inputs left in the end. -/
def pulled (call : σ → List ι → Except ε (σ × Option (ρ × List ι))) (stop : ρ → Bool) :
    ℕ → σ → List ι → List (σ × ρ × List ι) × Except ε (σ × List ι)
  | 0, s, is => ([], .ok (s, is))
  | n + 1, s, is =>
    match call s is with
    | .error e => ([], .error e)
    | .ok (s', none) => ([], .ok (s', []))
    | .ok (s', some (r, rest)) =>
      if stop r then ([(s', r, rest)], .ok (s', rest))
      else ((s', r, rest) :: (pulled call stop n s' rest).1, (pulled call stop n s' rest).2)

/-- The same for inputs that are pushed: a callback handles each of them, and is armed again as long
as it has given less than `n` outputs and none that stops. -/
def pushed (step : σ → ι → Except ε (σ × Option ρ)) (stop : ρ → Bool) :
    ℕ → σ → List ι → List (σ × ρ × List ι) × Except ε (σ × List ι)
  | 0, s, is => ([], .ok (s, is))
  | _ + 1, s, [] => ([], .ok (s, []))
  | n + 1, s, i :: is =>
    match step s i with
    | .error e => ([], .error e)
    | .ok (s', none) => pushed step stop (n + 1) s' is
    | .ok (s', some r) =>
      if stop r then ([(s', r, is)], .ok (s', is))
      else ((s', r, is) :: (pushed step stop n s' is).1, (pushed step stop n s' is).2)

/-- Duality: a callback that is called again whenever it has given an output, and a call that takes
inputs until it has one, give the same outputs and end in the same state. -/
theorem pushed_eq_pulled (step : σ → ι → Except ε (σ × Option ρ)) (stop : ρ → Bool) (n : ℕ) (s : σ)
    (is : List ι) : pushed step stop n s is = pulled (next step) stop n s is := by
  induction is generalizing n s with
  | nil => cases n <;> rfl
  | cons i is ih =>
    cases n with
    | zero => rfl
    | succ n =>
      rcases hi : step s i with e | ⟨s', _ | r⟩
      · simp only [pushed, pulled, next, hi]
      · -- the call goes on with the other inputs
        have hcall : next step s (i :: is) = next step s' is := by
          rw [next, hi]
        have hpulled : pulled (next step) stop (n + 1) s (i :: is) =
            pulled (next step) stop (n + 1) s' is := by
          rw [pulled, pulled, hcall]
        rw [hpulled, ← ih, pushed, hi]
      · simp only [pushed, pulled, next, hi, ih]

theorem suffix_of_next {step : σ → ι → Except ε (σ × Option ρ)} {s s' : σ}
    {is rest : List ι} {r : ρ} (h : next step s is = .ok (s', some (r, rest))) : rest <:+ is := by
  induction is generalizing s with
  | nil => cases h
  | cons i is ih =>
    rw [next] at h
    rcases hi : step s i with e | ⟨s₁, _ | r'⟩
    · rw [hi] at h
      cases h
    · rw [hi] at h
      exact (ih h).trans (List.suffix_cons _ _)
    · rw [hi] at h
      cases h
      exact List.suffix_cons _ _

/-- Loop rule: a call that takes inputs until one gives an output, whichever end of the inputs is
left, gives what the callback gives. -/
theorem pulled_eq_pushed {step : σ → ι → Except ε (σ × Option ρ)}
    {call : σ → List ι → Except ε (σ × Option (ρ × List ι))} {stop : ρ → Bool} {is : List ι}
    (h : ∀ s js, js <:+ is → call s js = next step s js) (n : ℕ) (s : σ) :
    pulled call stop n s is = pushed step stop n s is := by
  rw [pushed_eq_pulled]
  induction n generalizing s is with
  | zero => rfl
  | succ n ih =>
    rw [pulled, pulled, h s is List.suffix_rfl]
    rcases hcall : next step s is with e | ⟨s', _ | ⟨r, rest⟩⟩
    · rfl
    · rfl
    · simp only
      rw [ih (fun s js hjs => h s js (hjs.trans (suffix_of_next hcall))) s']

/-- Translation rule: a callback that does the same on translated inputs, up to a translation of the
outputs, gives translated outputs after the same inputs. -/
theorem pushed_map {step : σ → ι → Except ε (σ × Option ρ)}
    {step' : σ → κ → Except ε (σ × Option π)}
    {f : ι → κ} {g : ρ → π} {stop : ρ → Bool} {stop' : π → Bool}
    (hstep : ∀ s i, step' s (f i) = (step s i).map fun r => (r.1, r.2.map g))
    (hstop : ∀ r, stop' (g r) = stop r) (n : ℕ) (s : σ) (is : List ι) :
    pushed step' stop' n s (is.map f) =
      ((pushed step stop n s is).1.map fun r => (r.1, g r.2.1, r.2.2.map f),
        (pushed step stop n s is).2.map fun r => (r.1, r.2.map f)) := by
  induction is generalizing n s with
  | nil => cases n <;> rfl
  | cons i is ih =>
    cases n with
    | zero => rfl
    | succ n =>
      have hi := hstep s i
      rw [List.map_cons]
      rcases hs : step s i with e | ⟨s', _ | r⟩
      · rw [hs] at hi
        simp only [pushed, hs, hi, Except.map, List.map_nil]
      · rw [hs] at hi
        simp only [pushed, hs, hi, Except.map, Option.map_none]
        exact ih (n + 1) s'
      · rw [hs] at hi
        simp only [pushed, hs, hi, Except.map, Option.map_some, hstop]
        split_ifs
        · rfl
        · rw [ih n s']
          rfl

theorem exists_run_of_pushed {step : σ → ι → Except ε (σ × Option ρ)} {stop : ρ → Bool}
    {n : ℕ} {s s' : σ} {is rest : List ι} (h : (pushed step stop n s is).2 = .ok (s', rest)) :
    ∃ taken, is = taken ++ rest ∧ (Machine.run step s taken).2 = .ok s' ∧
      (pushed step stop n s is).1.map (fun x => x.2.1) =
        (Machine.run step s taken).1.reduceOption := by
  induction is generalizing n s with
  | nil =>
    cases n <;> cases h <;> exact ⟨[], rfl, rfl, rfl⟩
  | cons i is ih =>
    cases n with
    | zero =>
      cases h
      exact ⟨[], rfl, rfl, rfl⟩
    | succ n =>
      rcases hi : step s i with e | ⟨s₁, _ | r⟩
      · simp only [pushed, hi] at h
        cases h
      · simp only [pushed, hi] at h ⊢
        obtain ⟨taken, rfl, hrun, houts⟩ := ih h
        refine ⟨i :: taken, rfl, ?_, ?_⟩
        · rw [Machine.run_cons_ok hi]
          exact hrun
        · rw [Machine.run_cons_ok hi, List.reduceOption_cons_of_none, houts]
      · simp only [pushed, hi] at h ⊢
        cases hstop : stop r with
        | true =>
          simp only [hstop, if_true] at h ⊢
          cases h
          exact ⟨[i], rfl, by rw [Machine.run_cons_ok hi]; rfl, by rw [Machine.run_cons_ok hi]; rfl⟩
        | false =>
          simp only [hstop, Bool.false_eq_true, if_false] at h ⊢
          obtain ⟨taken, rfl, hrun, houts⟩ := ih h
          refine ⟨i :: taken, rfl, ?_, ?_⟩
          · rw [Machine.run_cons_ok hi]
            exact hrun
          · rw [Machine.run_cons_ok hi, List.reduceOption_cons_of_some, List.map_cons, houts]

end Pull
