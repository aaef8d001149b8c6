import Mathlib.Data.List.Perm.Subperm
import Mathlib.Logic.Function.Basic

/-!
# Singly linked lists in a heap

`IsList next p as` says that the pointers `next`, followed from `p`, visit the addresses `as` and end.
A cell that is not yet in the list can be linked in at any place, and `unlink` takes the first cell out
that meets a condition.
-/

namespace HeapList
open List Function

def IsList (next : ℕ → Option ℕ) : Option ℕ → List ℕ → Prop
  | p, [] => p = none
  | p, a :: as => p = some a ∧ IsList next (next a) as

variable {next next' : ℕ → Option ℕ} {p : Option ℕ} {as : List ℕ}

theorem IsList.congr (h : IsList next p as) (heq : ∀ a ∈ as, next' a = next a) :
    IsList next' p as := by
  induction as generalizing p with
  | nil => exact h
  | cons a as ih =>
    rw [forall_mem_cons] at heq
    refine ⟨h.1, ?_⟩
    rw [heq.1]
    exact ih h.2 heq.2

theorem IsList.head? (h : IsList next p as) : p = as.head? := by
  cases as with
  | nil => exact h
  | cons a as => exact h.1

variable {n : ℕ}

theorem IsList.cons (h : IsList next p as) (hn : n ∉ as) :
    IsList (update next n p) (some n) (n :: as) := by
  refine ⟨rfl, ?_⟩
  rw [update_self]
  exact h.congr fun a ha => update_of_ne (ne_of_mem_of_not_mem ha hn) _ _

variable {bs front : List ℕ}

theorem IsList.insert {q : ℕ}
    (h : IsList next p (front ++ q :: bs)) (hn : n ∉ front ++ q :: bs)
    (hq : q ∉ front ++ bs) :
    IsList (update (update next n bs.head?) q (some n)) p
      (front ++ q :: n :: bs) := by
  induction front generalizing p with
  | nil =>
    obtain ⟨rfl, hrest⟩ := h
    simp only [nil_append, mem_cons, not_or] at hn hq
    refine ⟨rfl, ?_, ?_⟩
    · rw [update_self]
    · rw [update_of_ne hn.1, update_self, ← hrest.head?]
      refine hrest.congr fun a ha => ?_
      rw [update_of_ne (ne_of_mem_of_not_mem ha hq),
        update_of_ne (ne_of_mem_of_not_mem ha hn.2)]
  | cons a front ih =>
    obtain ⟨rfl, hrest⟩ := h
    simp only [cons_append, mem_cons, not_or] at hn hq
    refine ⟨rfl, ?_⟩
    rw [update_of_ne (Ne.symm hq.1), update_of_ne (Ne.symm hn.1)]
    exact ih hrest hn.2 hq.2

theorem IsList.tail (h : IsList next p (as ++ bs)) : ∃ q, IsList next q bs := by
  induction as generalizing p with
  | nil => exact ⟨p, h⟩
  | cons a as ih => exact ih h.2

theorem IsList.unique (h : IsList next p as) (h' : IsList next p bs) : as = bs := by
  induction as generalizing p bs with
  | nil =>
    cases bs with
    | nil => rfl
    | cons b bs => exact absurd (h.symm.trans h'.1) (by simp)
  | cons a as ih =>
    cases bs with
    | nil => exact absurd (h'.symm.trans h.1) (by simp)
    | cons b bs =>
      obtain rfl : a = b := Option.some.inj (h.1.symm.trans h'.1)
      rw [ih h.2 h'.2]

theorem IsList.nodup (h : IsList next p as) : as.Nodup := by
  induction as generalizing p with
  | nil => exact nodup_nil
  | cons a as ih =>
    refine nodup_cons.mpr ⟨fun ha => ?_, ih h.2⟩
    obtain ⟨front, back, rfl⟩ := append_of_mem ha
    obtain ⟨q, -, hback⟩ := h.2.tail
    have hlength := congrArg length (h.2.unique hback)
    simp at hlength
    omega

theorem IsList.length_le (h : IsList next p as) (hlt : ∀ a ∈ as, a < n) : as.length ≤ n := by
  have hsub : as ⊆ range n := fun a ha => mem_range.mpr (hlt a ha)
  have hle := (subperm_of_subset h.nodup hsub).length_le
  rwa [length_range] at hle

variable {back : List ℕ} {a : ℕ}

theorem IsList.bypass {q : ℕ} (h : IsList next p (front ++ q :: a :: back)) :
    IsList (update next q (next a)) p (front ++ q :: back) := by
  have hnodup := h.nodup
  induction front generalizing p with
  | nil =>
    obtain ⟨rfl, -, hback⟩ := h
    rw [nil_append, nodup_cons] at hnodup
    refine ⟨rfl, ?_⟩
    rw [update_self]
    refine hback.congr fun x hx => update_of_ne (ne_of_mem_of_not_mem hx ?_) _ _
    exact fun hq => hnodup.1 (mem_cons_of_mem a hq)
  | cons b front ih =>
    obtain ⟨rfl, hrest⟩ := h
    rw [cons_append, nodup_cons] at hnodup
    refine ⟨rfl, ?_⟩
    rw [update_of_ne (fun hb => hnodup.1 (by simp [hb]))]
    exact ih hrest hnodup.2

variable (hit : ℕ → Bool)

/-- Walk from `cur`, whose link is in the cell `prev` or in `head`. `none` is the end of the list without a
hit. -/
def unlinkLoop (next : ℕ → Option ℕ) (head : Option ℕ) :
    ℕ → Option ℕ → Option ℕ → Option (Option ℕ × (ℕ → Option ℕ))
  | _, _, none => none
  | 0, _, some _ => none
  | fuel + 1, prev, some a =>
    if hit a then
      match prev with
      | none => some (next a, next)
      | some q => some (head, update next q (next a))
    else unlinkLoop next head fuel (some a) (next a)

def unlink (next : ℕ → Option ℕ) (fuel : ℕ) (head : Option ℕ) :
    Option (Option ℕ × (ℕ → Option ℕ)) :=
  unlinkLoop hit next head fuel none head

variable {hit}

variable {head : Option ℕ} {fuel : ℕ}

theorem unlinkLoop_spec {cur : Option ℕ} (done rest : List ℕ)
    (h : IsList next head (done ++ rest ++ a :: back)) (hcur : IsList next cur (rest ++ a :: back))
    (hrest : ∀ x ∈ rest, hit x = false) (ha : hit a) (hfuel : rest.length < fuel) :
    ∃ head' next', unlinkLoop hit next head fuel done.getLast? cur = some (head', next') ∧
      IsList next' head' (done ++ rest ++ back) ∧ ∀ x, x ∉ done ++ rest → next' x = next x := by
  induction rest generalizing done cur fuel with
  | nil =>
    obtain ⟨fuel, rfl⟩ : ∃ m, fuel = m + 1 := ⟨fuel - 1, by simp at hfuel; omega⟩
    obtain ⟨rfl, hback⟩ := hcur
    rw [append_nil] at h
    simp only [append_nil, unlinkLoop, ha]
    obtain rfl | ⟨front, q, rfl⟩ := eq_nil_or_concat done
    · exact ⟨_, _, rfl, hback, fun _ _ => rfl⟩
    · rw [concat_eq_append, append_assoc] at h
      simp only [concat_eq_append, getLast?_append]
      refine ⟨_, _, rfl, ?_, fun x hx => update_of_ne (fun hxq => hx (by simp [hxq])) _ _⟩
      rw [append_assoc]
      exact h.bypass
  | cons b rest ih =>
    obtain ⟨fuel, rfl⟩ : ∃ m, fuel = m + 1 := ⟨fuel - 1, by simp at hfuel; omega⟩
    obtain ⟨rfl, hcur⟩ := hcur
    rw [forall_mem_cons] at hrest
    have hmove : done ++ b :: rest = done ++ [b] ++ rest := by simp
    rw [hmove] at h ⊢
    obtain ⟨head', next', hstep, hlist, hsame⟩ :=
      ih (done ++ [b]) h hcur hrest.2 (by simp at hfuel; omega)
    rw [getLast?_append] at hstep
    refine ⟨head', next', ?_, hlist, hsame⟩
    simp only [unlinkLoop, hrest.1]
    exact hstep

theorem unlink_spec
    (h : IsList next head (front ++ a :: back)) (hfront : ∀ x ∈ front, hit x = false) (ha : hit a)
    (hfuel : front.length < fuel) :
    ∃ head' next', unlink hit next fuel head = some (head', next') ∧
      IsList next' head' (front ++ back) ∧ ∀ x, x ∉ front → next' x = next x := by
  obtain ⟨head', next', hstep, hlist, hsame⟩ :=
    unlinkLoop_spec [] front h h hfront ha hfuel
  exact ⟨head', next', hstep, hlist, hsame⟩

theorem unlinkLoop_none {prev cur : Option ℕ} (h : IsList next cur as)
    (hmiss : ∀ x ∈ as, hit x = false) : unlinkLoop hit next head fuel prev cur = none := by
  induction as generalizing prev cur fuel with
  | nil =>
    obtain rfl : cur = none := h
    simp only [unlinkLoop]
  | cons a as ih =>
    obtain ⟨rfl, hrest⟩ := h
    rw [forall_mem_cons] at hmiss
    cases fuel with
    | zero => rfl
    | succ fuel =>
      simp only [unlinkLoop, hmiss.1]
      exact ih hrest hmiss.2

theorem unlink_none (h : IsList next head as)
    (hmiss : ∀ x ∈ as, hit x = false) : unlink hit next fuel head = none :=
  unlinkLoop_none h hmiss

end HeapList
