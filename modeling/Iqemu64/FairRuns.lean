import Mathlib.Order.Filter.AtTopBot.Basic

/-!
# Infinite runs

An infinite run takes a step or stays as it is at each time. Fairness is given per process: one that can move
again and again moves again and again. A place that a process could leave again and again is left.
-/

open Filter

namespace FairRuns

variable {S E : Type} {Step : S → E → S → Prop} {s₀ : S}

structure Run (Step : S → E → S → Prop) (s₀ : S) where
  state : ℕ → S
  event : ℕ → Option E
  start : state 0 = s₀
  idle : ∀ n, event n = none → state (n + 1) = state n
  step : ∀ n e, event n = some e → Step (state n) e (state (n + 1))

namespace Run

variable (r : Run Step s₀)

theorem invariant {I : S → Prop} (hI : ∀ s e t, I s → Step s e t → I t) (h₀ : I s₀) (n : ℕ) :
    I (r.state n) := by
  induction n with
  | zero => rwa [r.start]
  | succ n ih =>
    cases he : r.event n with
    | none =>
      rw [r.idle n he]
      exact ih
    | some e => exact hI _ e _ ih (r.step n e he)

end Run

theorem exists_first {P : ℕ → Prop} {n : ℕ} (h : ∃ m, n ≤ m ∧ P m) :
    ∃ m, n ≤ m ∧ P m ∧ ∀ k, n ≤ k → k < m → ¬ P k := by
  classical
  refine ⟨Nat.find h, (Nat.find_spec h).1, (Nat.find_spec h).2, fun k hk hlt hP => ?_⟩
  exact Nat.find_min h hlt ⟨hk, hP⟩

/-- A process that stays where it is until it moves, and that could move again and again if it stayed for ever,
moves. -/
theorem exists_move {A Can Moves : ℕ → Prop} {n : ℕ}
    (hfair : (∃ᶠ m in atTop, Can m) → ∃ᶠ m in atTop, Moves m)
    (hstays : ∀ m, n ≤ m → (∀ k, n ≤ k → k < m → ¬ Moves k) → A m)
    (hcan : (∀ m, n ≤ m → A m) → ∃ᶠ m in atTop, Can m) :
    ∃ m, n ≤ m ∧ Moves m ∧ A m := by
  have hmoves : ∃ m, n ≤ m ∧ Moves m := by
    by_contra hnone
    have hnever : ∀ k, n ≤ k → ¬ Moves k := fun k hk hm => hnone ⟨k, hk, hm⟩
    have hagain := hfair (hcan fun m hm => hstays m hm fun k hk _ => hnever k hk)
    obtain ⟨m, hm, hmove⟩ := frequently_atTop.mp hagain n
    exact hnever m hm hmove
  obtain ⟨m, hm, hmove, hfirst⟩ := exists_first hmoves
  exact ⟨m, hm, hmove, hstays m hm hfirst⟩

/-! ### Runs that stop -/

section Stops

variable (f : S → E → Option S)

def stateAt : S → List E → ℕ → S
  | s, [], _ => s
  | s, _ :: _, 0 => s
  | s, e :: es, n + 1 =>
    match f s e with
    | none => s
    | some t => stateAt t es n

variable {f}

theorem stateAt_zero {s : S} {es : List E} : stateAt f s es 0 = s := by cases es <;> rfl

theorem stateAt_idle {s : S} {es : List E} {n : ℕ} (h : es[n]? = none) :
    stateAt f s es (n + 1) = stateAt f s es n := by
  induction es generalizing s n with
  | nil => rfl
  | cons e es ih =>
    cases n with
    | zero => simp at h
    | succ n =>
      unfold stateAt
      cases f s e with
      | none => rfl
      | some t => exact ih h

theorem stateAt_step {s : S} {es : List E} {n : ℕ} {e : E} (hes : (es.foldlM f s).isSome)
    (h : es[n]? = some e) : f (stateAt f s es n) e = some (stateAt f s es (n + 1)) := by
  induction es generalizing s n with
  | nil => simp at h
  | cons e' es ih =>
    rw [List.foldlM_cons] at hes
    cases ht : f s e' with
    | none => simp [ht] at hes
    | some t =>
      rw [ht] at hes
      cases n with
      | zero =>
        cases h
        simp [stateAt, ht, stateAt_zero]
      | succ n =>
        simpa [stateAt, ht] using ih hes h

theorem stateAt_length {s : S} {es : List E} {n : ℕ} (h : es.length ≤ n) :
    stateAt f s es n = stateAt f s es es.length := by
  induction n, h using Nat.le_induction with
  | base => rfl
  | succ n hn ih => rw [stateAt_idle (List.getElem?_eq_none hn), ih]

def Run.ofList (es : List E) (s₀ : S) (h : (es.foldlM f s₀).isSome) :
    Run (fun s e t => f s e = some t) s₀ where
  state := stateAt f s₀ es
  event := fun n => es[n]?
  start := stateAt_zero
  idle := fun _ => stateAt_idle
  step := fun _ _ => stateAt_step h

/-- What holds again and again of a run that stops holds at the end. -/
theorem Run.of_frequently (r : Run Step s₀) {N : ℕ} (hN : ∀ n, N ≤ n → r.state n = r.state N) {P : S → Prop}
    (hP : ∃ᶠ n in atTop, P (r.state n)) : P (r.state N) := by
  obtain ⟨n, hn, hPn⟩ := frequently_atTop.mp hP N
  rwa [hN n hn] at hPn

end Stops

end FairRuns
