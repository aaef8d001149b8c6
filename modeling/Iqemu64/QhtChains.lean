import Iqemu64.Qht

/-!
# Packed chains

What each operation does to a chain whose entries stand in front of its empty slots. The entry of a
pointer carries the pointer's own hash.
-/

namespace Iqemu64
open PackedSlots List

variable {P σ : Type} [DecidableEq P] (cmp : P → P → Bool) (hash : P → BitVec 32)

def entryOf (p : P) : QhtEntry P := ⟨p, hash p⟩

omit [DecidableEq P] in
@[simp] theorem entryOf_pointer (p : P) : (entryOf hash p).pointer = p := rfl

omit [DecidableEq P] in
@[simp] theorem entryOf_hash (p : P) : (entryOf hash p).hash = hash p := rfl

def Same (p q : P) : Prop := hash p = hash q ∧ cmp p q = true

instance (p q : P) : Decidable (Same cmp hash p q) := inferInstanceAs (Decidable (_ ∧ _))

namespace QhtChain

omit [DecidableEq P] in
theorem doLookup_pack (xs : List P) (m : ℕ) (p : P) :
    doLookup cmp p (hash p) (pack (xs.map (entryOf hash)) m) =
      xs.find? (fun q => Same cmp hash q p) := by
  induction xs with
  | nil =>
    induction m with
    | zero => rfl
    | succ m ih => exact ih
  | cons x xs ih =>
    rw [map_cons, pack_cons, doLookup, ih, find?_cons]
    by_cases hx : Same cmp hash x p
    · simp only [hx, decide_true]
      exact if_pos hx
    · simp only [hx, decide_false]
      exact if_neg hx

omit [DecidableEq P] in
theorem insertLoop_pack (xs : List P) (m : ℕ) (p : P) :
    insertLoop cmp p (hash p) (pack (xs.map (entryOf hash)) m) =
      match xs.find? (fun q => Same cmp hash q p) with
      | some q => .existing q
      | none => if m = 0 then .full else .found (pack ((xs ++ [p]).map (entryOf hash)) (m - 1)) := by
  induction xs with
  | nil => cases m <;> rfl
  | cons x xs ih =>
    rw [map_cons, pack_cons, insertLoop, ih, find?_cons]
    by_cases hx : Same cmp hash x p
    · simp only [hx, decide_true]
      exact if_pos hx
    · have hx' : ¬ ((entryOf hash x).hash = hash p ∧ cmp (entryOf hash x).pointer p = true) := hx
      simp only [hx, decide_false, if_neg hx']
      cases find? (fun q => decide (Same cmp hash q p)) xs with
      | some q => rfl
      | none =>
        by_cases hm : m = 0
        · simp [hm]
        · simp [hm]

theorem findPointer_pack_of_notMem (xs : List P) (m : ℕ) (p : P) (hp : p ∉ xs) :
    findPointer p (pack (xs.map (entryOf hash)) m) = none := by
  induction xs with
  | nil => cases m <;> rfl
  | cons x xs ih =>
    have hx : (entryOf hash x).pointer ≠ p := fun h => hp (h ▸ mem_cons_self)
    rw [map_cons, pack_cons, findPointer, if_neg hx, ih (fun h => hp (mem_cons_of_mem x h))]
    rfl

theorem findPointer_pack (as bs : List P) (m : ℕ) (p : P) (hp : p ∉ as) :
    findPointer p (pack ((as ++ p :: bs).map (entryOf hash)) m) = some as.length := by
  induction as with
  | nil => exact if_pos rfl
  | cons x as ih =>
    have hx : (entryOf hash x).pointer ≠ p := fun h => hp (h ▸ mem_cons_self)
    rw [cons_append, map_cons, pack_cons, findPointer, if_neg hx,
      ih (fun h => hp (mem_cons_of_mem x h))]
    rfl

omit [DecidableEq P] in
theorem set_pack_last (xs : List (QhtEntry P)) (z : QhtEntry P) (m : ℕ) :
    (pack (xs ++ [z]) m).set xs.length none = pack xs (m + 1) := by
  rw [pack_append, set_append_right _ _ (by simp)]
  simp [pack, replicate_succ]

omit [DecidableEq P] in
theorem set_pack_middle (as bs : List (QhtEntry P)) (x z : QhtEntry P) (m : ℕ) :
    (pack (as ++ x :: bs) m).set as.length (some z) = pack (as ++ z :: bs) m := by
  rw [pack_append, set_append_right _ _ (by simp), pack_append]
  simp

omit [DecidableEq P] in
theorem getD_pack_last (xs : List (QhtEntry P)) (z : QhtEntry P) (m : ℕ) :
    (pack (xs ++ [z]) m).getD xs.length none = some z := by
  simp [pack, getD_eq_getElem?_getD]

omit [DecidableEq P] in
theorem entryMove_pack (as bs : List (QhtEntry P)) (x z : QhtEntry P) (m : ℕ) :
    entryMove (pack (as ++ x :: bs ++ [z]) m) as.length (as ++ x :: bs).length =
      pack (as ++ z :: bs) (m + 1) := by
  have hlen : (as ++ z :: bs).length = (as ++ x :: bs).length := by simp
  unfold entryMove
  rw [getD_pack_last, append_assoc, cons_append, set_pack_middle, ← cons_append,
    ← append_assoc, ← hlen, set_pack_last]

omit [DecidableEq P] in
theorem entryIsLast_pack (xs : List (QhtEntry P)) (m pos : ℕ) :
    entryIsLast (pack xs m) pos = decide (xs.length ≤ pos + 1) := by
  rw [entryIsLast, getD_eq_getElem?_getD, pack]
  by_cases h : xs.length ≤ pos + 1
  · rw [getElem?_append_right (by simpa using h), getElem?_replicate]
    split_ifs <;> simp [h]
  · have hlt : pos + 1 < xs.length := Nat.lt_of_not_le h
    rw [getElem?_append_left (by simpa using hlt), getElem?_map,
      getElem?_eq_getElem hlt]
    simp [h]

omit [DecidableEq P] in
/-- The last entry moves into the place of the removed one. -/
theorem removeEntry_pack (as bs : List (QhtEntry P)) (x : QhtEntry P) (m : ℕ) :
    removeEntry (pack (as ++ x :: bs) m) as.length = pack (as ++ moveLast bs) (m + 1) := by
  unfold removeEntry
  rcases eq_nil_or_concat bs with rfl | ⟨cs, z, rfl⟩
  · have hlast : entryIsLast (pack (as ++ [x]) m) as.length = true := by simp [entryIsLast_pack]
    rw [if_pos hlast, set_pack_last, moveLast, append_nil]
  · have hlast : ¬ entryIsLast (pack (as ++ x :: (cs ++ [z])) m) as.length = true := by
      simp [entryIsLast_pack]
    have hmove := entryMove_pack as cs x z m
    rw [append_assoc, cons_append] at hmove
    rw [concat_eq_append, if_neg hlast, moveLast_concat, ← hmove]
    -- the first empty slot is behind the last entry, from whichever bucket the search starts
    have hstart : as.length / qhtBucketEntries * qhtBucketEntries ≤ as.length := Nat.div_mul_le_self _ _
    simp only
    rw [drop_pack _ _ _ (by simp; omega), findIdx?_pack]
    by_cases hm : m = 0
    · simp only [hm, if_true]
      congr 1
      simp
    · simp only [hm, if_false]
      congr 1
      simp
      omega

omit [DecidableEq P] in
theorem resetLocked_pack (xs : List (QhtEntry P)) (m : ℕ) :
    resetLocked (pack xs m) = pack [] (xs.length + m) := by
  induction xs with
  | nil =>
    rw [length_nil, Nat.zero_add]
    cases m <;> rfl
  | cons x xs ih =>
    rw [pack_cons, resetLocked, ih, length_cons, Nat.add_right_comm]
    rfl

omit [DecidableEq P] in
theorem getElem?_pack_middle (as bs : List (QhtEntry P)) (x : QhtEntry P) (m : ℕ) :
    (pack (as ++ x :: bs) m)[as.length]? = some (some x) := by
  simp [pack]

omit [DecidableEq P] in
theorem getElem?_pack_end (as : List (QhtEntry P)) (m : ℕ) :
    ∀ e, (pack as m)[as.length]? ≠ some (some e) := by
  intro e
  cases m <;> simp [pack, replicate_succ]

section Iteration

variable {f : σ → P → BitVec 32 → Bool × σ} {s : σ} {chain : QhtChain P} {pos : ℕ} {e : QhtEntry P}

omit [DecidableEq P] in
theorem bucketIter_removed (he : chain[pos]? = some (some e))
    (hf : (f s e.pointer e.hash).1 = true) :
    bucketIter f s chain pos = bucketIter f (f s e.pointer e.hash).2 (chain.removeEntry pos) pos := by
  rw [bucketIter]
  split
  · rename_i e' he'
    obtain rfl : e = e' := by simpa using he.symm.trans he'
    exact if_pos hf
  · rename_i hno
    exact absurd he (hno e)

omit [DecidableEq P] in
theorem bucketIter_kept (he : chain[pos]? = some (some e))
    (hf : ¬ (f s e.pointer e.hash).1 = true) :
    bucketIter f s chain pos = bucketIter f (f s e.pointer e.hash).2 chain (pos + 1) := by
  rw [bucketIter]
  split
  · rename_i e' he'
    obtain rfl : e = e' := by simpa using he.symm.trans he'
    exact if_neg hf
  · rename_i hno
    exact absurd he (hno e)

omit [DecidableEq P] in
theorem bucketIter_end (h : ∀ e, chain[pos]? ≠ some (some e)) :
    bucketIter f s chain pos = (chain, s) := by
  rw [bucketIter]
  split
  · rename_i e he
    exact absurd he (h e)
  · rfl

end Iteration

omit [DecidableEq P] in
/-- The iteration asks about every entry once, in some order. -/
theorem bucketIter_pack (f : σ → P → BitVec 32 → Bool × σ) (n : ℕ) (as bs : List P) (hn : bs.length = n)
    (m : ℕ) (s : σ) :
    ∃ order m', order.Perm bs ∧
      bucketIter f s (pack ((as ++ bs).map (entryOf hash)) m) as.length =
        (pack ((as ++ (sift (fun s p => f s p (hash p)) s order).1).map (entryOf hash)) m',
          (sift (fun s p => f s p (hash p)) s order).2) := by
  induction n generalizing as bs m s with
  | zero =>
    rw [length_eq_zero_iff] at hn
    subst hn
    refine ⟨[], m, .refl _, ?_⟩
    have hend := getElem?_pack_end (as.map (entryOf hash)) m
    rw [length_map] at hend
    rw [append_nil, bucketIter_end hend, sift, append_nil]
  | succ n ih =>
    obtain ⟨x, bs, rfl⟩ := exists_cons_of_length_eq_add_one hn
    have hlen : bs.length = n := by simpa using hn
    have hat : (pack ((as ++ x :: bs).map (entryOf hash)) m)[as.length]? = some (some (entryOf hash x)) := by
      simpa using getElem?_pack_middle (as.map (entryOf hash)) (bs.map (entryOf hash)) (entryOf hash x) m
    by_cases hf : (f s x (hash x)).1 = true
    · -- the entry goes, and the last one is asked about in its place
      have hremove := removeEntry_pack (as.map (entryOf hash)) (bs.map (entryOf hash)) (entryOf hash x) m
      rw [← map_moveLast, length_map, ← map_cons, ← map_append,
        ← map_append] at hremove
      obtain ⟨order, m', hperm, heq⟩ := ih as (moveLast bs)
        ((moveLast_perm bs).length_eq.trans hlen) (m + 1) (f s x (hash x)).2
      refine ⟨x :: order, m', (hperm.trans (moveLast_perm bs)).cons x, ?_⟩
      rw [bucketIter_removed hat hf, hremove, entryOf_pointer, entryOf_hash, heq]
      simp [sift, hf]
    · obtain ⟨order, m', hperm, heq⟩ := ih (as ++ [x]) bs hlen m (f s x (hash x)).2
      refine ⟨x :: order, m', hperm.cons x, ?_⟩
      rw [append_assoc, singleton_append, length_append] at heq
      rw [bucketIter_kept hat hf]
      refine heq.trans ?_
      simp [sift, hf]

end QhtChain

end Iqemu64
