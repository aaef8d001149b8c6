import Mathlib.Tactic

/-!
# Chains of steps with growing footprints

A list of items is processed one after the other. Each item is laid out from counters that only grow,
and its step leaves alone everything laid out before it. `Steps` collects what is known of a single
step. The run lemmas then say when a run completes, which invariant it keeps, and that the state
right after each item's own step survives to the end.
-/

namespace StepChain

inductive Chain {C P : Type} (Lay : C → P → C → Prop) : C → List P → C → Prop
  | nil (c : C) : Chain Lay c [] c
  | cons {c c₁ c₂ : C} {p : P} {ps : List P} (head : Lay c p c₁) (tail : Chain Lay c₁ ps c₂) :
      Chain Lay c (p :: ps) c₂

theorem Chain.and {C P : Type} {Lay : C → P → C → Prop} {Q : P → Prop} {c c' : C} {ps : List P}
    (h : Chain Lay c ps c') (hQ : ∀ p ∈ ps, Q p) :
    Chain (fun c p c' => Lay c p c' ∧ Q p) c ps c' := by
  induction h with
  | nil c => exact .nil c
  | cons head tail ih =>
    exact .cons ⟨head, hQ _ List.mem_cons_self⟩ (ih fun p hp => hQ p (List.mem_cons_of_mem _ hp))

theorem Chain.exists_of_mem {C P : Type} {Lay : C → P → C → Prop} {c c' : C} {ps : List P}
    (h : Chain Lay c ps c') {p : P} (hp : p ∈ ps) : ∃ c₁ c₂, Lay c₁ p c₂ := by
  induction h with
  | nil c => cases hp
  | cons head tail ih =>
    rcases List.mem_cons.mp hp with rfl | hp
    · exact ⟨_, _, head⟩
    · exact ih hp

/-- If every item lies below the counters after it and above those before it, each pair of items is
in order. -/
theorem Chain.pairwise {C P : Type} {Lay : C → P → C → Prop} (Below : C → P → Prop)
    {R : P → P → Prop} (hbelow : ∀ {c p c₁}, Lay c p c₁ → Below c₁ p)
    (hmono : ∀ {c p c₁ q}, Lay c p c₁ → Below c q → Below c₁ q)
    (hR : ∀ {c p c₁ q}, Lay c p c₁ → Below c q → R q p) {c c' : C} {ps : List P}
    (h : Chain Lay c ps c') : ps.Pairwise R := by
  suffices hall : ps.Pairwise R ∧ ∀ q, Below c q → ∀ p ∈ ps, R q p from hall.1
  induction h with
  | nil c => exact ⟨.nil, fun q _ p hp => absurd hp (by simp)⟩
  | cons head tail ih =>
    refine ⟨.cons (ih.2 _ (hbelow head)) ih.1, fun q hq p hp => ?_⟩
    rcases List.mem_cons.mp hp with rfl | hp
    · exact hR head hq
    · exact ih.2 q (hmono head hq) p hp

structure Steps (S C P : Type) where
  Lay : C → P → C → Prop
  step : P → S → Option S
  Inv : C → S → Prop
  Agree : C → S → S → Prop
  agree_refl : ∀ c s, Agree c s s
  agree_trans : ∀ {c s₁ s₂ s₃}, Agree c s₁ s₂ → Agree c s₂ s₃ → Agree c s₁ s₃
  agree_mono : ∀ {c p c₁ s₁ s₂}, Lay c p c₁ → Agree c₁ s₁ s₂ → Agree c s₁ s₂
  step_keeps : ∀ {c p c₁ s s₁}, Lay c p c₁ → Inv c s → step p s = some s₁ →
    Inv c₁ s₁ ∧ Agree c s s₁

namespace Steps

variable {S C P : Type} (T : Steps S C P)

def run : List P → S → Option S
  | [], s => some s
  | p :: ps, s => (T.step p s).bind (run ps)

theorem run_cons_eq_some {p : P} {ps : List P} {s s' : S} (h : T.run (p :: ps) s = some s') :
    ∃ s₁, T.step p s = some s₁ ∧ T.run ps s₁ = some s' :=
  Option.bind_eq_some_iff.mp h

theorem run_keeps {c c' : C} {ps : List P} {s s' : S} (hc : Chain T.Lay c ps c') (hi : T.Inv c s)
    (h : T.run ps s = some s') : T.Inv c' s' ∧ T.Agree c s s' := by
  induction hc generalizing s with
  | nil c =>
    obtain rfl := Option.some.inj h
    exact ⟨hi, T.agree_refl c s⟩
  | cons head tail ih =>
    obtain ⟨s₁, hs₁, hrest⟩ := T.run_cons_eq_some h
    obtain ⟨hi₁, ha₁⟩ := T.step_keeps head hi hs₁
    obtain ⟨hi', ha'⟩ := ih hi₁ hrest
    exact ⟨hi', T.agree_trans ha₁ (T.agree_mono head ha')⟩

/-- A run completes exactly when each item meets the condition under which its step completes. -/
theorem run_ne_none_iff {Ok : P → Prop} {c c' : C} {ps : List P} {s : S}
    (hok : ∀ {c p c₁ s}, T.Lay c p c₁ → T.Inv c s → (T.step p s ≠ none ↔ Ok p))
    (hc : Chain T.Lay c ps c') (hi : T.Inv c s) : T.run ps s ≠ none ↔ ∀ p ∈ ps, Ok p := by
  induction hc generalizing s with
  | nil c => simp [run]
  | cons head tail ih =>
    rw [List.forall_mem_cons, ← hok head hi, run]
    cases hs : T.step _ s with
    | none => simp
    | some s₁ =>
      simpa using ih (T.step_keeps head hi hs).1

/-- The state right after an item's own step agrees with the final one on what was laid out up to
and including the item. -/
theorem exists_step_of_mem {c c' : C} {ps : List P} {s s' : S} (hc : Chain T.Lay c ps c')
    (hi : T.Inv c s) (h : T.run ps s = some s') {p : P} (hp : p ∈ ps) :
    ∃ c₁ c₂ s₁ s₂, T.Lay c₁ p c₂ ∧ T.Inv c₁ s₁ ∧ T.step p s₁ = some s₂ ∧ T.Agree c₂ s₂ s' := by
  induction hc generalizing s with
  | nil c => cases hp
  | cons head tail ih =>
    obtain ⟨s₁, hs₁, hrest⟩ := T.run_cons_eq_some h
    have hi₁ := (T.step_keeps head hi hs₁).1
    rcases List.mem_cons.mp hp with rfl | hp
    · exact ⟨_, _, s, s₁, head, hi, hs₁, (T.run_keeps tail hi₁ hrest).2⟩
    · exact ih hi₁ hrest hp

/-- The same for one occurrence of an item, with the counters at which it is laid out. -/
theorem exists_step_of_append {c c₁ c₂ c' : C} {ps qs : List P} {p : P} {s s' : S}
    (hps : Chain T.Lay c ps c₁) (hp : T.Lay c₁ p c₂) (hqs : Chain T.Lay c₂ qs c') (hi : T.Inv c s)
    (h : T.run (ps ++ p :: qs) s = some s') :
    ∃ s₁ s₂, T.Inv c₁ s₁ ∧ T.step p s₁ = some s₂ ∧ T.Agree c₂ s₂ s' := by
  induction hps generalizing s with
  | nil c =>
    obtain ⟨s₂, hs₂, hrest⟩ := T.run_cons_eq_some h
    exact ⟨s, s₂, hi, hs₂, (T.run_keeps hqs (T.step_keeps hp hi hs₂).1 hrest).2⟩
  | cons head tail ih =>
    obtain ⟨s₁, hs₁, hrest⟩ := T.run_cons_eq_some h
    exact ih hp (T.step_keeps head hi hs₁).1 hrest

def strengthen (J : C → S → Prop) (hJ : ∀ {c p c₁ s s₁}, T.Lay c p c₁ → T.Inv c s → J c s →
    T.step p s = some s₁ → J c₁ s₁) : Steps S C P where
  Lay := T.Lay
  step := T.step
  Inv c s := T.Inv c s ∧ J c s
  Agree := T.Agree
  agree_refl := T.agree_refl
  agree_trans := T.agree_trans
  agree_mono := T.agree_mono
  step_keeps hlay hinv hstep :=
    have h := T.step_keeps hlay hinv.1 hstep
    ⟨⟨h.1, hJ hlay hinv.1 hinv.2 hstep⟩, h.2⟩

theorem strengthen_run {J : C → S → Prop} (hJ : ∀ {c p c₁ s s₁}, T.Lay c p c₁ → T.Inv c s → J c s →
    T.step p s = some s₁ → J c₁ s₁) (ps : List P) (s : S) :
    (T.strengthen J hJ).run ps s = T.run ps s := by
  induction ps generalizing s with
  | nil => rfl
  | cons p ps ih => exact congrArg (Option.bind _) (funext ih)

end Steps

end StepChain
