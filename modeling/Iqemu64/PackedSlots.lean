import Mathlib.Data.List.Basic
import Mathlib.Tactic

/-!
# Packed slots

A row of slots is packed when its occupied slots stand in front. An element is removed by moving the
last one into its place, and a sweep looks at every element once even though removals move elements
that it has not seen yet.
-/

namespace PackedSlots
open List

variable {α β σ : Type*}

def Packed (l : List (Option α)) : Prop := l.Pairwise (fun a b => a = none → b = none)

def pack (xs : List α) (m : ℕ) : List (Option α) := xs.map some ++ replicate m none

def visited : List (Option α) → List α
  | some x :: l => x :: visited l
  | _ => []

@[simp] theorem pack_cons (x : α) (xs : List α) (m : ℕ) : pack (x :: xs) m = some x :: pack xs m := rfl

theorem pack_append (xs ys : List α) (m : ℕ) : pack (xs ++ ys) m = xs.map some ++ pack ys m := by
  simp [pack]

@[simp] theorem length_pack (xs : List α) (m : ℕ) : (pack xs m).length = xs.length + m := by
  simp [pack]

@[simp] theorem visited_pack (xs : List α) (m : ℕ) : visited (pack xs m) = xs := by
  induction xs with
  | nil => cases m <;> rfl
  | cons x xs ih => rw [pack_cons, visited, ih]

theorem packed_pack (xs : List α) (m : ℕ) : Packed (pack xs m) := by
  induction xs with
  | nil => exact pairwise_replicate.mpr (.inr id)
  | cons x xs ih => exact pairwise_cons.mpr ⟨fun b _ h => by simp at h, ih⟩

def moveLast : List α → List α
  | [] => []
  | x :: xs => (x :: xs).getLast (cons_ne_nil x xs) :: (x :: xs).dropLast

@[simp] theorem moveLast_concat (xs : List α) (z : α) : moveLast (xs ++ [z]) = z :: xs := by
  cases xs with
  | nil => rfl
  | cons x xs =>
    calc moveLast (x :: xs ++ [z])
        = (x :: xs ++ [z]).getLast (by simp) :: (x :: xs ++ [z]).dropLast := rfl
      _ = z :: x :: xs := by rw [getLast_concat, dropLast_concat]

theorem moveLast_perm (xs : List α) : (moveLast xs).Perm xs := by
  rcases eq_nil_or_concat xs with rfl | ⟨ys, z, rfl⟩
  · exact .refl _
  · rw [concat_eq_append, moveLast_concat]
    exact (perm_append_singleton z ys).symm

theorem map_moveLast (g : β → α) (xs : List β) : (moveLast xs).map g = moveLast (xs.map g) := by
  rcases eq_nil_or_concat xs with rfl | ⟨ys, z, rfl⟩
  · rfl
  · simp

theorem findIdx?_pack (xs : List α) (m : ℕ) :
    (pack xs m).findIdx? Option.isNone = if m = 0 then none else some xs.length := by
  induction xs with
  | nil => cases m <;> simp [pack, findIdx?_cons]
  | cons x xs ih =>
    rw [pack_cons, findIdx?_cons]
    split_ifs <;> simp_all

theorem drop_pack (xs : List α) (m n : ℕ) (hn : n ≤ xs.length) :
    (pack xs m).drop n = pack (xs.drop n) m := by
  rw [pack, drop_append_of_le_length (by simpa using hn), pack, map_drop]

def sift (f : σ → α → Bool × σ) : σ → List α → List α × σ
  | s, [] => ([], s)
  | s, x :: xs =>
    let rest := sift f (f s x).2 xs
    (if (f s x).1 then rest.1 else x :: rest.1, rest.2)

theorem sift_append (f : σ → α → Bool × σ) (s : σ) (xs ys : List α) :
    sift f s (xs ++ ys) =
      ((sift f s xs).1 ++ (sift f (sift f s xs).2 ys).1, (sift f (sift f s xs).2 ys).2) := by
  induction xs generalizing s with
  | nil => rfl
  | cons x xs ih =>
    simp only [cons_append, sift, ih]
    split_ifs <;> rfl

theorem sift_sublist (f : σ → α → Bool × σ) (s : σ) (xs : List α) : (sift f s xs).1.Sublist xs := by
  induction xs generalizing s with
  | nil => exact .slnil
  | cons x xs ih =>
    simp only [sift]
    split_ifs
    · exact (ih _).cons x
    · exact (ih _).cons_cons x

end PackedSlots
