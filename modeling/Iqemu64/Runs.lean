import Mathlib.Data.List.Basic

/-!
# Runs of a transition system

A transition system is a step relation labelled by events. `Along Step P s es` says that `P` holds
before each event of every run over `es` from `s`. An invariant that each step keeps, if it meets a
condition, holds along every run whose steps all meet the condition.
-/

namespace Runs

variable {S E : Type} (Step : S → E → S → Prop)

/-- `P` holds of the state and the event at each step of a run over the events. -/
def Along (P : S → E → Prop) : S → List E → Prop
  | _, [] => True
  | s, e :: es => P s e ∧ ∀ t, Step s e t → Along P t es

inductive Reaches : S → List E → S → Prop
  | nil (s : S) : Reaches s [] s
  | cons {s t u : S} {e : E} {es : List E} (h : Step s e t) (hrest : Reaches t es u) :
      Reaches s (e :: es) u

variable {Step} {P Q : S → E → Prop} {s : S} {es : List E}

theorem Along.mono (h : ∀ s e, P s e → Q s e) (hP : Along Step P s es) : Along Step Q s es := by
  induction es generalizing s with
  | nil => trivial
  | cons e es ih => exact ⟨h s e hP.1, fun t ht => ih (hP.2 t ht)⟩

theorem Along.of_forall (h : ∀ s, ∀ e ∈ es, P s e) : Along Step P s es := by
  induction es generalizing s with
  | nil => trivial
  | cons e es ih =>
    exact ⟨h s e List.mem_cons_self, fun t _ => ih fun u e' he' => h u e' (List.mem_cons_of_mem e he')⟩

theorem Along.invariant {I : S → Prop} (hI : ∀ s e t, I s → P s e → Step s e t → I t) (hs : I s)
    (hP : Along Step P s es) : Along Step (fun s e => I s ∧ P s e) s es := by
  induction es generalizing s with
  | nil => trivial
  | cons e es ih => exact ⟨⟨hs, hP.1⟩, fun t ht => ih (hI s e t hs hP.1 ht) (hP.2 t ht)⟩

/-- What holds along a run holds where a part of it has led to. -/
theorem Along.of_reaches {e : E} {es' : List E} (hP : Along Step P s (es ++ e :: es')) {u : S}
    (hu : Reaches Step s es u) : P u e := by
  induction hu with
  | nil s => exact hP.1
  | cons h hrest ih => exact ih (hP.2 _ h)

/-- The invariant holds at the end of a run whose steps all meet the condition. -/
theorem Along.reaches_invariant {I : S → Prop} {u : S} (hI : ∀ s e t, I s → P s e → Step s e t → I t)
    (hP : Along Step P s es) (hs : I s) (hu : Reaches Step s es u) : I u := by
  induction hu with
  | nil s => exact hs
  | cons h hrest ih => exact ih (hP.2 _ h) (hI _ _ _ hs hP.1 h)

/-- The rule for invariants that only the events of the run have to keep. -/
theorem Reaches.invariant_of_mem {I : S → Prop} {u : S} (hu : Reaches Step s es u)
    (hI : ∀ e ∈ es, ∀ s t, I s → Step s e t → I t) (hs : I s) : I u := by
  induction hu with
  | nil s => exact hs
  | cons h hrest ih =>
    exact ih (List.forall_mem_cons.mp hI).2 (hI _ List.mem_cons_self _ _ hs h)

theorem Reaches.invariant {I : S → Prop} {u : S} (hu : Reaches Step s es u)
    (hI : ∀ s e t, I s → Step s e t → I t) (hs : I s) : I u :=
  hu.invariant_of_mem (fun e _ s t => hI s e t) hs

theorem Reaches.snoc {e : E} {u v : S} (hu : Reaches Step s es u) (h : Step u e v) :
    Reaches Step s (es ++ [e]) v := by
  induction hu with
  | nil s => exact .cons h (.nil _)
  | cons h' hrest ih => exact .cons h' (ih h)

end Runs
