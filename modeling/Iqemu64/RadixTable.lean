import Mathlib.Data.Nat.Digits.Lemmas
import Mathlib.Logic.Function.Basic

/-!
# Tables of several levels

A table of `w` bits has `2 ^ w` entries. Those of the last level are the values themselves, those of the
levels above point to the table of the next level, if it was allocated. The list has the widths of the
levels below. As a map from indices to values a table is determined by `lookup`, where a table that was
not allocated counts as full of default values.
-/

namespace RadixTable
open Function

variable {α : Type}

@[reducible] def Table (α : Type) : ℕ → List ℕ → Type
  | w, [] => Fin (2 ^ w) → α
  | w, w' :: ws => Fin (2 ^ w) → Option (Table α w' ws)

def bits (w : ℕ) (ws : List ℕ) : ℕ := w + ws.sum

def entry (w s index : ℕ) : Fin (2 ^ w) := ⟨(index >>> s) % 2 ^ w, Nat.mod_lt _ (Nat.two_pow_pos w)⟩

def empty (d : α) : (w : ℕ) → (ws : List ℕ) → Table α w ws
  | _, [] => fun _ => d
  | _, _ :: _ => fun _ => none

def find : {w : ℕ} → {ws : List ℕ} → Table α w ws → ℕ → Option α
  | w, [], t, index => some (t (entry w 0 index))
  | w, w' :: ws, t, index =>
    match t (entry w (bits w' ws) index) with
    | none => none
    | some t' => find t' index

def alloc (d : α) : {w : ℕ} → {ws : List ℕ} → Table α w ws → ℕ → Table α w ws
  | _, [], t, _ => t
  | w, w' :: ws, t, index =>
    let k := entry w (bits w' ws) index
    update t k (some (alloc d ((t k).getD (empty d w' ws)) index))

def write : {w : ℕ} → {ws : List ℕ} → Table α w ws → ℕ → α → Table α w ws
  | w, [], t, index, v => update t (entry w 0 index) v
  | w, w' :: ws, t, index, v =>
    let k := entry w (bits w' ws) index
    match t k with
    | none => t
    | some t' => update t k (some (write t' index v))

def lookup (d : α) {w : ℕ} {ws : List ℕ} (t : Table α w ws) (index : ℕ) : α := (find t index).getD d

variable {w i j : ℕ}

/-- Two indices that agree in the bits of a table agree in its entry and in the bits below. -/
theorem mod_eq_iff {s : ℕ} :
    i % 2 ^ (w + s) = j % 2 ^ (w + s) ↔ entry w s i = entry w s j ∧ i % 2 ^ s = j % 2 ^ s := by
  have hsplit : ∀ x : ℕ, x % 2 ^ (w + s) = x % 2 ^ s + 2 ^ s * (x / 2 ^ s % 2 ^ w) := fun x => by
    rw [Nat.add_comm, pow_add, Nat.mod_mul]
  rw [hsplit i, hsplit j, Fin.ext_iff, entry, entry]
  simp only [Nat.shiftRight_eq_div_pow]
  constructor
  · intro h
    have hlow := congrArg (· % 2 ^ s) h
    simp only [Nat.add_mul_mod_self_left, Nat.mod_mod] at hlow
    refine ⟨?_, hlow⟩
    rw [hlow, Nat.add_left_cancel_iff] at h
    exact Nat.eq_of_mul_eq_mul_left (Nat.two_pow_pos s) h
  · rintro ⟨hhigh, hlow⟩
    rw [hhigh, hlow]

variable {ws : List ℕ}

theorem find_congr (t : Table α w ws)
    (h : i % 2 ^ bits w ws = j % 2 ^ bits w ws) : find t i = find t j := by
  induction ws generalizing w with
  | nil =>
    have hentry : entry w 0 i = entry w 0 j := (mod_eq_iff.mp h).1
    rw [find, find, hentry]
  | cons w' ws ih =>
    have hbits : bits w (w' :: ws) = w + bits w' ws := by simp [bits]
    rw [hbits, mod_eq_iff] at h
    rw [find, find, h.1]
    cases t (entry w (bits w' ws) j) with
    | none => rfl
    | some t' => exact ih t' h.2

theorem lookup_empty (d : α) (w : ℕ) (ws : List ℕ) (i : ℕ) : lookup d (empty d w ws) i = d := by
  cases ws with
  | nil => rfl
  | cons w' ws => rfl

theorem lookup_cons (d : α) {w' : ℕ} (t : Table α w (w' :: ws)) (i : ℕ) :
    lookup d t i = lookup d ((t (entry w (bits w' ws) i)).getD (empty d w' ws)) i := by
  unfold lookup
  rw [find]
  cases ht : t (entry w (bits w' ws) i) with
  | none => exact (lookup_empty d w' ws i).symm
  | some t' => rfl

theorem lookup_entry (d : α) {w' : ℕ} (t : Table α w (w' :: ws)) (k : Fin (2 ^ w))
    (hj : j < 2 ^ bits w' ws) :
    lookup d t (k * 2 ^ bits w' ws + j) = lookup d ((t k).getD (empty d w' ws)) j := by
  have hentry : entry w (bits w' ws) (k.val * 2 ^ bits w' ws + j) = k := by
    refine Fin.ext ?_
    dsimp only [entry]
    rw [Nat.shiftRight_eq_div_pow, Nat.add_comm, Nat.add_mul_div_right _ _ (Nat.two_pow_pos _),
      Nat.div_eq_of_lt hj, Nat.zero_add, Nat.mod_eq_of_lt k.isLt]
  rw [lookup_cons, hentry, lookup, lookup, find_congr _ (Nat.mul_add_mod_self_right k.val _ j)]

theorem lookup_alloc (d : α) (t : Table α w ws) (i j : ℕ) :
    lookup d (alloc d t i) j = lookup d t j := by
  induction ws generalizing w with
  | nil => rfl
  | cons w' ws ih =>
    rw [lookup_cons d (alloc d t i), lookup_cons d t, alloc, update_apply]
    split
    · rename_i hentry
      rw [Option.getD_some, ih, hentry]
    · rfl

theorem find_alloc_self (d : α) (t : Table α w ws) (i : ℕ) :
    find (alloc d t i) i = some (lookup d t i) := by
  induction ws generalizing w with
  | nil => rfl
  | cons w' ws ih =>
    rw [lookup_cons, find, alloc, update_self]
    exact ih _

theorem lookup_write (d : α) (t : Table α w ws) (v : α)
    (halloc : (find t i).isSome) (j : ℕ) :
    lookup d (write t i v) j =
      if i % 2 ^ bits w ws = j % 2 ^ bits w ws then v else lookup d t j := by
  induction ws generalizing w with
  | nil =>
    have hmod := mod_eq_iff (w := w) (s := 0) (i := i) (j := j)
    rw [pow_zero, Nat.mod_one, Nat.mod_one, eq_self_iff_true, and_true] at hmod
    simp only [lookup, write, find, Option.getD_some, update_apply, bits, List.sum_nil, hmod,
      eq_comm]
  | cons w' ws ih =>
    rw [find] at halloc
    cases ht : t (entry w (bits w' ws) i) with
    | none =>
      rw [ht] at halloc
      cases halloc
    | some t' =>
      rw [ht] at halloc
      have hbits : bits w (w' :: ws) = w + bits w' ws := by simp [bits]
      rw [lookup_cons, lookup_cons d t, write, ht, hbits]
      simp only [update_apply, mod_eq_iff]
      by_cases hentry : entry w (bits w' ws) i = entry w (bits w' ws) j
      · rw [if_pos hentry.symm, Option.getD_some, ih t' halloc]
        simp only [hentry, true_and]
        rw [← hentry, ht, Option.getD_some]
      · rw [if_neg (Ne.symm hentry), if_neg (fun h => hentry h.1)]

theorem find_write_isSome (t : Table α w ws) (i : ℕ) (v : α)
    (h : (find t j).isSome) : (find (write t i v) j).isSome := by
  induction ws generalizing w with
  | nil => rfl
  | cons w' ws ih =>
    rw [write]
    cases ht : t (entry w (bits w' ws) i) with
    | none => exact h
    | some t' =>
      rw [find] at h ⊢
      simp only [update_apply]
      by_cases hentry : entry w (bits w' ws) j = entry w (bits w' ws) i
      · rw [hentry, ht] at h
        rw [if_pos hentry]
        exact ih t' h
      · rw [if_neg hentry]
        exact h

end RadixTable
