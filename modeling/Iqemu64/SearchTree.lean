import Mathlib.Data.List.Basic

/-!
# Search trees driven by a comparison

A binary search tree over a comparison function that need not be an order. What a search or an insertion does
depends only on the keys in their order, as long as the key that is looked for is larger than those on
one side and smaller than those on the other. So the tree may be rebalanced at any time.
-/

namespace SearchTree
open List

inductive Tree (κ α : Type) where
  | nil
  | node (left : Tree κ α) (key : κ) (value : α) (right : Tree κ α)

variable {κ α : Type}

namespace Tree

def toList : Tree κ α → List (κ × α)
  | nil => []
  | node l k v r => l.toList ++ (k, v) :: r.toList

variable (cmp : κ → κ → Option Ordering)

def insert (key : κ) (value : α) : Tree κ α → Option (Tree κ α)
  | nil => some (node nil key value nil)
  | node l k v r =>
    match cmp key k with
    | none => none
    | some .lt => (insert key value l).map fun l => node l k v r
    | some .eq => some (node l k value r)
    | some .gt => (insert key value r).map fun r => node l k v r

def lookup (key : κ) : Tree κ α → Option α
  | nil => none
  | node l k v r =>
    match cmp key k with
    | none => none
    | some .lt => lookup key l
    | some .eq => some v
    | some .gt => lookup key r

variable {cmp} {key : κ} {pre post : List (κ × α)}

theorem insert_of_split {t : Tree κ α} (value : α) (ht : t.toList = pre ++ post)
    (hpre : ∀ e ∈ pre, cmp key e.1 = some .gt) (hpost : ∀ e ∈ post, cmp key e.1 = some .lt) :
    ∃ t', t.insert cmp key value = some t' ∧ t'.toList = pre ++ (key, value) :: post := by
  induction t generalizing pre post with
  | nil =>
    obtain ⟨rfl, rfl⟩ := append_eq_nil_iff.mp ht.symm
    exact ⟨_, rfl, rfl⟩
  | node l k v r ihl ihr =>
    rw [toList, append_eq_append_iff] at ht
    obtain ⟨m, rfl, hm⟩ | ⟨m, hl, hm⟩ := ht
    · cases m with
      | nil =>
        -- the root is the first entry behind the key
        subst hm
        rw [forall_mem_cons] at hpost
        rw [append_nil] at hpre ⊢
        obtain ⟨l', hl', hlist⟩ := ihl (append_nil l.toList).symm hpre (by simp)
        refine ⟨node l' k v r, ?_, ?_⟩
        · rw [insert, hpost.1, hl']
          rfl
        · rw [toList, hlist]
          simp
      | cons e m =>
        rw [cons_append, List.cons.injEq] at hm
        obtain ⟨rfl, hr⟩ := hm
        obtain ⟨r', hr', hlist⟩ := ihr hr (fun e he => hpre e (by simp [he])) hpost
        refine ⟨node l k v r', ?_, ?_⟩
        · rw [insert, hpre (k, v) (by simp), hr']
          rfl
        · rw [toList, hlist]
          simp
    · subst hm
      obtain ⟨l', hl', hlist⟩ := ihl hl hpre (fun e he => hpost e (by simp [he]))
      refine ⟨node l' k v r, ?_, ?_⟩
      · rw [insert, hpost (k, v) (by simp), hl']
        rfl
      · rw [toList, hlist]
        simp

/-- Where the root is against an entry that is picked out. -/
theorem root_cases {l r : List (κ × α)} {a b : κ × α} (h : l ++ a :: r = pre ++ b :: post) :
    (∃ m, pre = l ++ a :: m ∧ r = m ++ b :: post) ∨ (l = pre ∧ a = b ∧ r = post) ∨
      ∃ m, l = pre ++ b :: m ∧ post = m ++ a :: r := by
  rw [append_eq_append_iff] at h
  obtain ⟨m, rfl, hm⟩ | ⟨m, rfl, hm⟩ := h
  · cases m with
    | nil =>
      rw [nil_append, List.cons.injEq] at hm
      exact .inr (.inl ⟨(append_nil l).symm, hm.1, hm.2⟩)
    | cons e m =>
      rw [cons_append, List.cons.injEq] at hm
      obtain ⟨rfl, hr⟩ := hm
      exact .inl ⟨m, rfl, hr⟩
  · cases m with
    | nil =>
      rw [nil_append, List.cons.injEq] at hm
      exact .inr (.inl ⟨append_nil pre, hm.1.symm, hm.2.symm⟩)
    | cons e m =>
      rw [cons_append, List.cons.injEq] at hm
      obtain ⟨rfl, hpost⟩ := hm
      exact .inr (.inr ⟨m, rfl, hpost⟩)

section Found
variable {t : Tree κ α} {k : κ} {v : α}

theorem lookup_of_split (ht : t.toList = pre ++ (k, v) :: post)
    (hpre : ∀ e ∈ pre, cmp key e.1 = some .gt) (heq : cmp key k = some .eq)
    (hpost : ∀ e ∈ post, cmp key e.1 = some .lt) : t.lookup cmp key = some v := by
  induction t generalizing pre post with
  | nil => simp [toList] at ht
  | node l k' v' r ihl ihr =>
    obtain ⟨m, rfl, hr⟩ | ⟨rfl, hroot, rfl⟩ | ⟨m, hl, rfl⟩ := root_cases ht
    · rw [lookup, hpre (k', v') (by simp)]
      exact ihr hr (fun e he => hpre e (by simp [he])) hpost
    · rw [Prod.mk.injEq] at hroot
      rw [lookup, hroot.1, heq, hroot.2]
    · rw [lookup, hpost (k', v') (by simp)]
      exact ihl hl hpre (fun e he => hpost e (by simp [he]))

/-- An equal key keeps its place and gets the new value. -/
theorem insert_of_found (value : α) (ht : t.toList = pre ++ (k, v) :: post)
    (hpre : ∀ e ∈ pre, cmp key e.1 = some .gt) (heq : cmp key k = some .eq)
    (hpost : ∀ e ∈ post, cmp key e.1 = some .lt) :
    ∃ t', t.insert cmp key value = some t' ∧ t'.toList = pre ++ (k, value) :: post := by
  induction t generalizing pre post with
  | nil => simp [toList] at ht
  | node l k' v' r ihl ihr =>
    obtain ⟨m, rfl, hr⟩ | ⟨rfl, hroot, rfl⟩ | ⟨m, hl, rfl⟩ := root_cases ht
    · obtain ⟨r', hr', hlist⟩ := ihr hr (fun e he => hpre e (by simp [he])) hpost
      refine ⟨node l k' v' r', ?_, ?_⟩
      · rw [insert, hpre (k', v') (by simp), hr']
        rfl
      · rw [toList, hlist]
        simp
    · rw [Prod.mk.injEq] at hroot
      refine ⟨node l k' value r, ?_, ?_⟩
      · rw [insert, hroot.1, heq]
      · rw [toList, hroot.1]
    · obtain ⟨l', hl', hlist⟩ := ihl hl hpre (fun e he => hpost e (by simp [he]))
      refine ⟨node l' k' v' r, ?_, ?_⟩
      · rw [insert, hpost (k', v') (by simp), hl']
        rfl
      · rw [toList, hlist]
        simp

end Found

end Tree

end SearchTree
