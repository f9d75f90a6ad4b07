import Mathlib

/-!
# While loops

`run cond body n s` is the state in which `while (cond) body` leaves the loop when it is entered
in `s`, or `none` when `n` iterations do not suffice. The total-correctness rule `run_of_variant`
takes an invariant and a natural-valued variant that every iteration decreases.
-/

namespace While

variable {σ : Type*}

/-- The exit state of `while (cond) body` within `n` iterations. -/
def run (cond : σ → Bool) (body : σ → σ) : ℕ → σ → Option σ
  | 0, s => if cond s then none else some s
  | n + 1, s => if cond s then run cond body n (body s) else some s

variable {cond : σ → Bool} {body : σ → σ}

theorem run_of_false {s : σ} (h : cond s = false) (n : ℕ) : run cond body n s = some s := by
  cases n <;> simp [run, h]

theorem run_succ_of_true {s : σ} (h : cond s = true) (n : ℕ) :
    run cond body (n + 1) s = run cond body n (body s) := by
  rw [run, if_pos h]

/-- Total correctness: an iteration that keeps the invariant and decreases the variant makes the
loop end, within as many iterations as the variant says, in a state of the invariant that fails the
condition. -/
theorem run_of_variant {I : σ → Prop} {V : σ → ℕ}
    (hbody : ∀ s, I s → cond s = true → I (body s) ∧ V (body s) < V s) :
    ∀ (n : ℕ) (s : σ), I s → V s ≤ n →
      ∃ s', run cond body n s = some s' ∧ I s' ∧ cond s' = false := by
  intro n
  induction n with
  | zero =>
    intro s hs hn
    rcases hc : cond s with _ | _
    · exact ⟨s, run_of_false hc 0, hs, hc⟩
    · have := (hbody s hs hc).2
      omega
  | succ n ih =>
    intro s hs hn
    rcases hc : cond s with _ | _
    · exact ⟨s, run_of_false hc _, hs, hc⟩
    · obtain ⟨hinv, hlt⟩ := hbody s hs hc
      rw [run_succ_of_true hc]
      exact ih (body s) hinv (by omega)

/-- Partial correctness: what every iteration keeps holds when the loop is left. -/
theorem invariant_of_run {I : σ → Prop} (hbody : ∀ s, I s → cond s = true → I (body s)) {n : ℕ}
    {s s' : σ} (hs : I s) (hrun : run cond body n s = some s') : I s' ∧ cond s' = false := by
  induction n generalizing s with
  | zero =>
    rcases hc : cond s with _ | _
    · rw [run_of_false hc, Option.some.injEq] at hrun
      exact hrun ▸ ⟨hs, hc⟩
    · rw [run, if_pos hc] at hrun
      cases hrun
  | succ n ih =>
    rcases hc : cond s with _ | _
    · rw [run_of_false hc, Option.some.injEq] at hrun
      exact hrun ▸ ⟨hs, hc⟩
    · rw [run_succ_of_true hc] at hrun
      exact ih (hbody s hs hc) hrun

end While
