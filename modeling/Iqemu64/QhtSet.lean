import Iqemu64.QhtChains
import Iqemu64.Runs
import Mathlib.Data.Finset.Basic
import Mathlib.Data.Nat.Size

/-!
# The hash table is a set

`SetStep` says what each call does to a finite set of pointers in which no two are equal in hash and
comparison. `Holds` connects it to the table: the entries of every chain stand in front, and each
pointer is in the bucket of its own hash.
-/

namespace Iqemu64
open PackedSlots List Function QhtChain

variable {P σ : Type} [DecidableEq P]

inductive QhtCall (P σ : Type) where
  | insert (p : P)
  | remove (p : P)
  | lookup (p : P)
  | resize (nElems : BitVec 64)
  | resetSize (nElems : BitVec 64)
  | iterRemove (f : σ → P → BitVec 32 → Bool × σ) (s : σ)

inductive QhtResult (P σ : Type) where
  | inserted
  | existing (q : P)
  | removed (ok : Bool)
  | found (q : Option P)
  | resized (changed : Bool)
  | iterated (s : σ)

variable (cmp : P → P → Bool) (hash : P → BitVec 32)

def Qht.call (ht : Qht P) : QhtCall P σ → Qht P × QhtResult P σ
  | .insert p =>
    let r := ht.qhtInsert cmp p (hash p)
    (r.1, match r.2 with | none => .inserted | some q => .existing q)
  | .remove p => let r := ht.qhtRemove p (hash p); (r.1, .removed r.2)
  | .lookup p => (ht, .found (ht.qhtLookup cmp p (hash p)))
  | .resize n => let r := ht.qhtResize cmp n; (r.1, .resized r.2)
  | .resetSize n => let r := ht.qhtResetSize cmp n; (r.1, .resized r.2)
  | .iterRemove f s => let r := ht.qhtIterRemove f s; (r.1, .iterated r.2)

/-- The calls one after the other, each with its result. -/
def Qht.calls (ht : Qht P) : List (QhtCall P σ) → Qht P × List (QhtCall P σ × QhtResult P σ)
  | [] => (ht, [])
  | c :: cs =>
    let r := ht.call cmp hash c
    let rest := r.1.calls cs
    (rest.1, (c, r.2) :: rest.2)

/-- What a call does to a set and answers. Whether a resize changes anything is not the set's business,
and the elements come in any order. -/
inductive SetStep : Finset P → QhtCall P σ × QhtResult P σ → Finset P → Prop
  | insertNew {S : Finset P} {p : P} (h : ∀ q ∈ S, ¬ Same cmp hash q p) :
      SetStep S (.insert p, .inserted) (insert p S)
  | insertOld {S : Finset P} {p q : P} (hq : q ∈ S) (h : Same cmp hash q p) :
      SetStep S (.insert p, .existing q) S
  | remove {S : Finset P} {p : P} : SetStep S (.remove p, .removed (p ∈ S)) (S.erase p)
  | lookupHit {S : Finset P} {p q : P} (hq : q ∈ S) (h : Same cmp hash q p) :
      SetStep S (.lookup p, .found (some q)) S
  | lookupMiss {S : Finset P} {p : P} (h : ∀ q ∈ S, ¬ Same cmp hash q p) :
      SetStep S (.lookup p, .found none) S
  | resize {S : Finset P} {n : BitVec 64} {changed : Bool} :
      SetStep S (.resize n, .resized changed) S
  | resetSize {S : Finset P} {n : BitVec 64} {changed : Bool} :
      SetStep S (.resetSize n, .resized changed) ∅
  | iterRemove {S : Finset P} {f : σ → P → BitVec 32 → Bool × σ} {s : σ} {order : List P}
      (hnodup : order.Nodup) (hall : order.toFinset = S) :
      SetStep S (.iterRemove f s, .iterated (sift (fun s p => f s p (hash p)) s order).2)
        (sift (fun s p => f s p (hash p)) s order).1.toFinset

structure QhtMap.Holds (map : QhtMap P) (xs : ℕ → List P) : Prop where
  pos : 0 < map.nBuckets
  slots : ∀ i, ∃ m, map.buckets i = pack ((xs i).map (entryOf hash)) m
  home : ∀ i, ∀ p ∈ xs i, map.toBucket (hash p) = i
  apart : ∀ i, (xs i).Pairwise (fun p q => ¬ Same cmp hash p q)

def QhtMap.Represents (map : QhtMap P) (S : Finset P) : Prop :=
  ∃ xs, map.Holds cmp hash xs ∧ ∀ p, p ∈ S ↔ p ∈ xs (map.toBucket (hash p))

theorem pow2ceil_pos (value : BitVec 64) (hv : value.toNat < 2 ^ 62) : 0 < pow2ceil value := by
  unfold pow2ceil
  simp only
  split_ifs with hn hzero
  · exact Nat.one_pos
  · -- a value that is not zero and small has leading zeros
    have hpos : 0 < value.toNat := Nat.pos_of_ne_zero fun h => hzero (BitVec.eq_of_toNat_eq h)
    have hsub : (value - 1).toNat = value.toNat - 1 := by
      have hone : (1 : BitVec 64).toNat = 1 := rfl
      rw [BitVec.toNat_sub_of_le (BitVec.le_def.mpr (hone.trans_le hpos)), hone]
    have hsize : (value - 1).toNat.size ≤ 62 := Nat.size_le.mpr (by omega)
    unfold clz64 at hn
    omega
  · have hle : clz64 (value - 1) ≤ 64 := Nat.sub_le _ _
    rw [Nat.shiftRight_eq_div_pow]
    exact Nat.div_pos (Nat.pow_le_pow_right (by decide) (by omega)) (Nat.two_pow_pos _)

theorem qhtElemsToBuckets_pos (nElems : BitVec 64) : 0 < qhtElemsToBuckets nElems := by
  refine pow2ceil_pos _ ?_
  rw [BitVec.toNat_udiv]
  exact Nat.div_lt_of_lt_mul nElems.isLt

namespace QhtMap

variable {cmp hash} {map : QhtMap P} {xs : ℕ → List P}

omit [DecidableEq P] in
@[simp] theorem setBucket_toBucket (i : ℕ) (chain : QhtChain P) (h : BitVec 32) :
    (map.setBucket i chain).toBucket h = map.toBucket h := rfl

omit [DecidableEq P] in
theorem toBucket_lt (hpos : 0 < map.nBuckets) (h : BitVec 32) : map.toBucket h < map.nBuckets :=
  (Nat.and_le_right).trans_lt (Nat.sub_lt hpos Nat.one_pos)

omit [DecidableEq P] in
/-- A bucket may change if its new pointers are at home and apart. -/
theorem Holds.setBucket (h : map.Holds cmp hash xs) {i : ℕ} {ys : List P} {m : ℕ}
    (hhome : ∀ p ∈ ys, map.toBucket (hash p) = i) (hapart : ys.Pairwise (fun p q => ¬ Same cmp hash p q)) :
    (map.setBucket i (pack (ys.map (entryOf hash)) m)).Holds cmp hash (update xs i ys) := by
  refine ⟨h.pos, fun j => ?_, fun j p hp => ?_, fun j => ?_⟩
  · rcases eq_or_ne j i with rfl | hne
    · exact ⟨m, by simp [QhtMap.setBucket]⟩
    · obtain ⟨m', hm'⟩ := h.slots j
      exact ⟨m', by simp [QhtMap.setBucket, update_of_ne hne, hm']⟩
  · rcases eq_or_ne j i with rfl | hne
    · rw [update_self] at hp
      exact hhome p hp
    · rw [update_of_ne hne] at hp
      exact h.home j p hp
  · rcases eq_or_ne j i with rfl | hne
    · rw [update_self]
      exact hapart
    · rw [update_of_ne hne]
      exact h.apart j

omit [DecidableEq P] in
theorem holds_create {n : ℕ} (hn : 0 < n) : (create n : QhtMap P).Holds cmp hash (fun _ => []) :=
  ⟨hn, fun _ => ⟨qhtBucketEntries, rfl⟩, fun _ _ hp => absurd hp not_mem_nil, fun _ => .nil⟩

omit [DecidableEq P] in
/-- An insertion that finds nothing equal appends to the bucket. -/
theorem Holds.insertLocked (h : map.Holds cmp hash xs) {p : P}
    (hnew : ∀ q ∈ xs (map.toBucket (hash p)), ¬ Same cmp hash q p) :
    (map.insertLocked cmp p (hash p)).1 = none ∧
      (map.insertLocked cmp p (hash p)).2.1.nBuckets = map.nBuckets ∧
      (map.insertLocked cmp p (hash p)).2.1.Holds cmp hash
        (update xs (map.toBucket (hash p)) (xs (map.toBucket (hash p)) ++ [p])) := by
  obtain ⟨m, hm⟩ := h.slots (map.toBucket (hash p))
  have hfind : (xs (map.toBucket (hash p))).find? (fun q => Same cmp hash q p) = none :=
    find?_eq_none.mpr fun q hq => by simpa using hnew q hq
  have hhome : ∀ q ∈ xs (map.toBucket (hash p)) ++ [p], map.toBucket (hash q) = map.toBucket (hash p) := by
    intro q hq
    rcases mem_append.mp hq with hq | hq
    · exact h.home _ q hq
    · rw [mem_singleton.mp hq]
  have hapart : (xs (map.toBucket (hash p)) ++ [p]).Pairwise (fun p q => ¬ Same cmp hash p q) := by
    refine pairwise_append.mpr ⟨h.apart _, pairwise_singleton _ _, fun q hq r hr => ?_⟩
    rw [mem_singleton.mp hr]
    exact hnew q hq
  unfold QhtMap.insertLocked
  simp only
  rw [hm, insertLoop_pack, hfind]
  cases m with
  | zero =>
    -- no slot is left, and a new bucket is chained
    have hchain : pack ((xs (map.toBucket (hash p))).map (entryOf hash)) 0 ++
        some ⟨p, hash p⟩ :: replicate (qhtBucketEntries - 1) none =
        pack ((xs (map.toBucket (hash p)) ++ [p]).map (entryOf hash)) (qhtBucketEntries - 1) := by
      simp [pack, entryOf]
    obtain ⟨hpos, hslots, hhome', hapart'⟩ := h.setBucket hhome hapart (m := qhtBucketEntries - 1)
    exact ⟨rfl, rfl, hpos, hchain ▸ hslots, hhome', hapart'⟩
  | succ m => exact ⟨rfl, rfl, h.setBucket hhome hapart⟩

omit [DecidableEq P] in
theorem Holds.insertLocked_existing (h : map.Holds cmp hash xs) {p q : P}
    (hq : (xs (map.toBucket (hash p))).find? (fun q => Same cmp hash q p) = some q) :
    map.insertLocked cmp p (hash p) = (some q, map, false) := by
  obtain ⟨m, hm⟩ := h.slots (map.toBucket (hash p))
  unfold QhtMap.insertLocked
  simp only
  rw [hm, insertLoop_pack, hq]

omit [DecidableEq P] in
/-- The pointers of all buckets are apart, since equal ones have the same home. -/
theorem Holds.pairwise_flatMap (h : map.Holds cmp hash xs) :
    ((range map.nBuckets).flatMap xs).Pairwise (fun p q => ¬ Same cmp hash p q) := by
  refine List.pairwise_flatMap.mpr ⟨fun i _ => h.apart i, ?_⟩
  refine (List.nodup_range).imp fun {i j} hne p hp q hq hsame => hne ?_
  rw [← h.home i p hp, ← h.home j q hq, hsame.1]

omit [DecidableEq P] in
theorem Holds.entries (h : map.Holds cmp hash xs) :
    map.entries = ((range map.nBuckets).flatMap xs).map (entryOf hash) := by
  have hvisited : ∀ i, visited (map.buckets i) = (xs i).map (entryOf hash) := by
    intro i
    obtain ⟨m, hm⟩ := h.slots i
    rw [hm, visited_pack]
  rw [QhtMap.entries, map_flatMap]
  exact flatMap_congr fun i _ => hvisited i

omit [DecidableEq P] in
theorem Holds.mem_flatMap (h : map.Holds cmp hash xs) (p : P) :
    p ∈ (List.range map.nBuckets).flatMap xs ↔ p ∈ xs (map.toBucket (hash p)) := by
  rw [List.mem_flatMap]
  constructor
  · rintro ⟨i, -, hp⟩
    rwa [h.home i p hp]
  · intro hp
    exact ⟨_, List.mem_range.mpr (toBucket_lt h.pos _), hp⟩

omit [DecidableEq P] in
theorem toBucket_congr {map' : QhtMap P} (h : map'.nBuckets = map.nBuckets) (k : BitVec 32) :
    map'.toBucket k = map.toBucket k := by
  unfold toBucket
  rw [h]

omit [DecidableEq P] in
/-- After an insertion a bucket has what was there and the new pointer. -/
theorem mem_update_append (p q : P) :
    q ∈ update xs (map.toBucket (hash p)) (xs (map.toBucket (hash p)) ++ [p])
      (map.toBucket (hash q)) ↔ q ∈ xs (map.toBucket (hash q)) ∨ q = p := by
  by_cases hq : map.toBucket (hash q) = map.toBucket (hash p)
  · rw [hq, update_self, mem_append, mem_singleton]
  · rw [update_of_ne hq]
    exact ⟨.inl, fun h => h.resolve_right fun hqp => hq (hqp ▸ rfl)⟩

omit [DecidableEq P] in
/-- Copying pointers that are apart from each other and from what is there loses none of them. -/
theorem Holds.foldl_copy (ps : List P) (h : map.Holds cmp hash xs)
    (hapart : ps.Pairwise (fun p q => ¬ Same cmp hash p q))
    (hnew : ∀ p ∈ ps, ∀ q ∈ xs (map.toBucket (hash p)), ¬ Same cmp hash q p) :
    ∃ ys, ((ps.map (entryOf hash)).foldl (copy cmp) map).Holds cmp hash ys ∧
      ((ps.map (entryOf hash)).foldl (copy cmp) map).nBuckets = map.nBuckets ∧
      ∀ q, q ∈ ys (map.toBucket (hash q)) ↔ q ∈ xs (map.toBucket (hash q)) ∨ q ∈ ps := by
  induction ps generalizing map xs with
  | nil => exact ⟨xs, h, rfl, fun q => by simp⟩
  | cons p ps ih =>
    obtain ⟨-, hn, hins⟩ := h.insertLocked (hnew p mem_cons_self)
    obtain ⟨hp, hps⟩ := pairwise_cons.mp hapart
    have hnew' : ∀ r ∈ ps, ∀ q ∈ update xs (map.toBucket (hash p))
        (xs (map.toBucket (hash p)) ++ [p])
          ((map.insertLocked cmp p (hash p)).2.1.toBucket (hash r)), ¬ Same cmp hash q r := by
      intro r hr q hq hsame
      rw [toBucket_congr hn, ← hsame.1] at hq
      rcases (mem_update_append p q).mp hq with hq | rfl
      · rw [hsame.1] at hq
        exact hnew r (mem_cons_of_mem p hr) q hq hsame
      · exact hp r hr hsame
    obtain ⟨ys, hys, hlen, hiff⟩ := ih hins hps hnew'
    refine ⟨ys, hys, hlen.trans hn, fun q => ?_⟩
    have hq := hiff q
    rw [toBucket_congr hn, mem_update_append] at hq
    rw [hq, mem_cons, or_assoc]

omit [DecidableEq P] in
theorem Represents.resize {S : Finset P} (h : map.Represents cmp hash S) {n : ℕ} (hn : 0 < n) :
    (map.entries.foldl (copy cmp) (create n)).Represents cmp hash S := by
  obtain ⟨xs, hxs, hS⟩ := h
  rw [hxs.entries]
  obtain ⟨ys, hys, hlen, hiff⟩ := (holds_create hn).foldl_copy _ hxs.pairwise_flatMap
    (fun p _ q hq => absurd hq not_mem_nil)
  refine ⟨ys, hys, fun p => ?_⟩
  rw [toBucket_congr hlen, hiff, hS, hxs.mem_flatMap]
  simp

omit [DecidableEq P] in
theorem Represents.reset {S : Finset P} (h : map.Represents cmp hash S) :
    map.reset.Represents cmp hash ∅ := by
  obtain ⟨xs, hxs, -⟩ := h
  refine ⟨fun _ => [], ⟨hxs.pos, fun i => ?_, fun _ _ hp => absurd hp not_mem_nil, fun _ => .nil⟩,
    fun p => by simp⟩
  obtain ⟨m, hm⟩ := hxs.slots i
  by_cases hi : i < map.nBuckets
  · exact ⟨_, by simp only [QhtMap.reset, hi, if_true, hm, resetLocked_pack]; rfl⟩
  · -- a bucket that is not there holds nothing
    have hnil : xs i = [] := by
      refine eq_nil_iff_forall_not_mem.mpr fun p hp => hi ?_
      rw [← hxs.home i p hp]
      exact toBucket_lt hxs.pos _
    exact ⟨m, by simp only [QhtMap.reset, hi, if_false, hm, hnil]⟩

omit [DecidableEq P] in
theorem Represents.packed {S : Finset P} (h : map.Represents cmp hash S) (i : ℕ) :
    Packed (map.buckets i) := by
  obtain ⟨xs, hxs, -⟩ := h
  obtain ⟨m, hm⟩ := hxs.slots i
  rw [hm]
  exact packed_pack _ m

theorem Represents.insertNew {S : Finset P} (h : map.Represents cmp hash S) {p : P}
    (hnew : ∀ q ∈ S, ¬ Same cmp hash q p) :
    (map.insertLocked cmp p (hash p)).1 = none ∧
      (map.insertLocked cmp p (hash p)).2.1.Represents cmp hash (insert p S) := by
  obtain ⟨xs, hxs, hS⟩ := h
  obtain ⟨hnone, hn, hins⟩ := hxs.insertLocked (p := p) fun q hq hsame => by
    refine hnew q ((hS q).mpr ?_) hsame
    rwa [hsame.1]
  refine ⟨hnone, _, hins, fun q => ?_⟩
  rw [toBucket_congr hn, mem_update_append, Finset.mem_insert, hS, or_comm]

omit [DecidableEq P] in
/-- The search in a bucket finds an equal member of the set if there is one. -/
theorem find?_cases {S : Finset P}
    (hS : ∀ p, p ∈ S ↔ p ∈ xs (map.toBucket (hash p))) (p : P) :
    (∃ q ∈ S, Same cmp hash q p ∧
        (xs (map.toBucket (hash p))).find? (fun q => Same cmp hash q p) = some q) ∨
      ((∀ q ∈ S, ¬ Same cmp hash q p) ∧
        (xs (map.toBucket (hash p))).find? (fun q => Same cmp hash q p) = none) := by
  cases hfind : (xs (map.toBucket (hash p))).find? (fun q => Same cmp hash q p) with
  | some q =>
    have hsame : Same cmp hash q p := by simpa using find?_some hfind
    refine .inl ⟨q, (hS q).mpr ?_, hsame, rfl⟩
    rw [hsame.1]
    exact mem_of_find?_eq_some hfind
  | none =>
    refine .inr ⟨fun q hq hsame => ?_, rfl⟩
    have hmem := (hS q).mp hq
    rw [hsame.1] at hmem
    simpa [hsame] using find?_eq_none.mp hfind q hmem

section Equivalence

variable (hcmp : Equivalence fun p q => cmp p q = true)
include hcmp

omit [DecidableEq P] in
theorem Same.not_symm {p q : P} (h : ¬ Same cmp hash p q) : ¬ Same cmp hash q p :=
  fun hs => h ⟨hs.1.symm, hcmp.symm hs.2⟩

omit [DecidableEq P] in
theorem nodup_of_apart {ps : List P} (h : ps.Pairwise (fun p q => ¬ Same cmp hash p q)) : ps.Nodup := by
  refine List.Pairwise.imp (fun {p q} hpq => ?_) h
  rintro rfl
  exact hpq ⟨rfl, hcmp.refl p⟩

omit [DecidableEq P] in
/-- Some of the pointers of a bucket, in any order, are still at home and apart. -/
theorem Holds.setBucket_of_subperm (h : map.Holds cmp hash xs) {i m : ℕ} {ys : List P}
    (hys : ys.Subperm (xs i)) :
    (map.setBucket i (pack (ys.map (entryOf hash)) m)).Holds cmp hash (update xs i ys) := by
  obtain ⟨zs, hperm, hsub⟩ := hys
  refine h.setBucket (fun p hp => h.home i p (hsub.subset (hperm.mem_iff.mpr hp))) ?_
  exact (hperm.pairwise_iff (Same.not_symm hcmp)).mp ((h.apart i).sublist hsub)

theorem Represents.remove {S : Finset P} (h : map.Represents cmp hash S) (p : P) :
    ((map.buckets (map.toBucket (hash p))).removeLocked p).2 = decide (p ∈ S) ∧
      (map.setBucket (map.toBucket (hash p))
        ((map.buckets (map.toBucket (hash p))).removeLocked p).1).Represents cmp hash (S.erase p) := by
  obtain ⟨xs, hxs, hS⟩ := h
  obtain ⟨m, hm⟩ := hxs.slots (map.toBucket (hash p))
  unfold removeLocked
  rw [hm]
  by_cases hp : p ∈ S
  · obtain ⟨as, bs, hab, hpas⟩ := eq_append_cons_of_mem ((hS p).mp hp)
    have hnodup := nodup_of_apart hcmp (hxs.apart (map.toBucket (hash p)))
    have hperm : (as ++ moveLast bs).Perm ((xs (map.toBucket (hash p))).erase p) := by
      rw [hab, erase_append_right _ hpas, erase_cons_head]
      exact (moveLast_perm bs).append_left as
    have hremove := removeEntry_pack (as.map (entryOf hash)) (bs.map (entryOf hash))
      (entryOf hash p) m
    rw [← map_moveLast, length_map, ← map_cons, ← map_append,
      ← map_append] at hremove
    rw [hab, findPointer_pack hash as bs m p hpas]
    simp only [hremove, hp, decide_true, true_and]
    refine ⟨_, hxs.setBucket_of_subperm hcmp (hperm.subperm.trans (erase_sublist).subperm),
      fun q => ?_⟩
    rw [Finset.mem_erase, hS, setBucket_toBucket]
    by_cases hq : map.toBucket (hash q) = map.toBucket (hash p)
    · rw [hq, update_self, hperm.mem_iff, hnodup.mem_erase_iff]
    · rw [update_of_ne hq]
      exact and_iff_right fun hqp => hq (hqp ▸ rfl)
  · have hnot : p ∉ xs (map.toBucket (hash p)) := fun h => hp ((hS p).mpr h)
    rw [findPointer_pack_of_notMem hash _ m p hnot]
    simp only [hp, decide_false, true_and]
    refine ⟨_, hxs.setBucket_of_subperm hcmp (List.Subperm.refl _), fun q => ?_⟩
    rw [Finset.erase_eq_of_notMem hp, hS, setBucket_toBucket, update_eq_self]

omit [DecidableEq P] in
/-- The iteration over some buckets asks about each of their pointers once. -/
theorem Holds.foldl_iter (f : σ → P → BitVec 32 → Bool × σ) (is : List ℕ) (his : is.Nodup)
    (h : map.Holds cmp hash xs) (s : σ) :
    ∃ order ys, order.Perm (is.flatMap xs) ∧
      ∃ map', is.foldl
        (fun ms i =>
          let r := bucketIter f ms.2 (ms.1.buckets i) 0
          (ms.1.setBucket i r.1, r.2))
        (map, s) = (map', (sift (fun s p => f s p (hash p)) s order).2) ∧
      map'.Holds cmp hash ys ∧ map'.nBuckets = map.nBuckets ∧ (∀ i ∉ is, ys i = xs i) ∧
      is.flatMap ys = (sift (fun s p => f s p (hash p)) s order).1 := by
  induction is generalizing map xs s with
  | nil => exact ⟨[], xs, .refl _, map, rfl, h, rfl, fun _ _ => rfl, rfl⟩
  | cons i is ih =>
    obtain ⟨hi, his⟩ := nodup_cons.mp his
    obtain ⟨m, hm⟩ := h.slots i
    obtain ⟨order₁, m', hperm₁, hiter⟩ := bucketIter_pack hash f _ [] (xs i) rfl m s
    have hkept : (sift (fun s p => f s p (hash p)) s order₁).1.Subperm (xs i) :=
      (sift_sublist _ s order₁).subperm.trans hperm₁.subperm
    have h₁ := h.setBucket_of_subperm (m := m') hcmp hkept
    have hrest : ∀ j ∈ is, update xs i (sift (fun s p => f s p (hash p)) s order₁).1 j = xs j :=
      fun j hj => update_of_ne (ne_of_mem_of_not_mem hj hi) _ _
    obtain ⟨order₂, ys, hperm₂, map', hfold, hys, hn, hother, hflat⟩ :=
      ih his h₁ (sift (fun s p => f s p (hash p)) s order₁).2
    rw [flatMap_congr hrest] at hperm₂
    refine ⟨order₁ ++ order₂, ys, ?_, map', ?_, hys, hn, fun j hj => ?_, ?_⟩
    · rw [flatMap_cons]
      exact hperm₁.append hperm₂
    · rw [foldl_cons, sift_append]
      simp only [hm]
      simp only [nil_append, length_nil] at hiter
      rw [hiter]
      exact hfold
    · rw [mem_cons, not_or] at hj
      rw [hother j hj.2, update_of_ne hj.1]
    · rw [flatMap_cons, hother i hi, update_self, hflat, sift_append]

theorem Represents.iterRemove {S : Finset P} (h : map.Represents cmp hash S)
    (f : σ → P → BitVec 32 → Bool × σ) (s : σ) :
    ∃ order : List P, order.Nodup ∧ order.toFinset = S ∧
      (map.iterRemove f s).2 = (sift (fun s p => f s p (hash p)) s order).2 ∧
      (map.iterRemove f s).1.Represents cmp hash
        (sift (fun s p => f s p (hash p)) s order).1.toFinset := by
  obtain ⟨xs, hxs, hS⟩ := h
  obtain ⟨order, ys, hperm, map', hfold, hys, hn, -, hflat⟩ :=
    hxs.foldl_iter hcmp f (range map.nBuckets) nodup_range s
  have hnodup := nodup_of_apart hcmp hxs.pairwise_flatMap
  rw [QhtMap.iterRemove, hfold]
  refine ⟨order, hperm.nodup_iff.mpr hnodup, ?_, rfl, ys, hys, fun p => ?_⟩
  · ext p
    rw [mem_toFinset, hperm.mem_iff, hxs.mem_flatMap, hS]
  · rw [mem_toFinset, ← hflat, ← hn, hys.mem_flatMap]

end Equivalence

end QhtMap

namespace Qht

variable {cmp hash} {ht : Qht P} {S : Finset P}

omit [DecidableEq P] in
theorem growMaybe_represents (h : ht.map.Represents cmp hash S) :
    (ht.growMaybe cmp).map.Represents cmp hash S := by
  unfold growMaybe
  split_ifs
  · obtain ⟨xs, hxs, -⟩ := id h
    exact h.resize (Nat.mul_pos hxs.pos Nat.two_pos)
  · exact h

variable (hcmp : Equivalence fun p q => cmp p q = true)
include hcmp

/-- Every call does to the table what it does to the set. -/
theorem call_setStep (h : ht.map.Represents cmp hash S) (c : QhtCall P σ) :
    ∃ S', SetStep cmp hash S (c, (ht.call cmp hash c).2) S' ∧
      (ht.call cmp hash c).1.map.Represents cmp hash S' := by
  obtain ⟨xs, hxs, hS⟩ := id h
  cases c with
  | insert p =>
    have hgrow : ∀ map S', map.Represents cmp hash S' → ∀ b : Bool,
        (if b then ({ ht with map } : Qht P).growMaybe cmp else { ht with map }).map.Represents cmp hash
          S' := by
      intro map S' hmap b
      split_ifs
      · exact growMaybe_represents hmap
      · exact hmap
    rcases QhtMap.find?_cases hS p with ⟨q, hq, hsame, hfind⟩ | ⟨hnew, -⟩
    · have hins := hxs.insertLocked_existing hfind
      refine ⟨S, ?_, hgrow _ S ?_ _⟩
      · simp only [call, qhtInsert, hins]
        exact .insertOld hq hsame
      · rw [hins]
        exact h
    · obtain ⟨hnone, hins⟩ := h.insertNew hnew
      refine ⟨insert p S, ?_, hgrow _ _ hins _⟩
      simp only [call, qhtInsert, hnone]
      exact .insertNew hnew
  | remove p =>
    obtain ⟨hres, hrep⟩ := h.remove hcmp p
    refine ⟨S.erase p, ?_, hrep⟩
    simp only [call, qhtRemove, hres]
    exact .remove
  | lookup p =>
    obtain ⟨m, hm⟩ := hxs.slots (ht.map.toBucket (hash p))
    refine ⟨S, ?_, h⟩
    simp only [call, qhtLookup, hm, doLookup_pack]
    rcases QhtMap.find?_cases hS p with ⟨q, hq, hsame, hfind⟩ | ⟨hnew, hfind⟩
    · rw [hfind]
      exact .lookupHit hq hsame
    · rw [hfind]
      exact .lookupMiss hnew
  | resize n =>
    refine ⟨S, .resize, ?_⟩
    simp only [call, qhtResize]
    split_ifs
    · exact h.resize (qhtElemsToBuckets_pos n)
    · exact h
  | resetSize n =>
    refine ⟨∅, .resetSize, ?_⟩
    simp only [call, qhtResetSize, doResizeReset]
    split_ifs
    · exact h.reset.resize (qhtElemsToBuckets_pos n)
    · exact h.reset
  | iterRemove f s =>
    obtain ⟨order, hnodup, hall, hres, hrep⟩ := h.iterRemove hcmp f s
    refine ⟨_, ?_, hrep⟩
    simp only [call, qhtIterRemove, hres]
    exact .iterRemove hnodup hall

theorem calls_setStep (h : ht.map.Represents cmp hash S) (cs : List (QhtCall P σ)) :
    ∃ S', Runs.Reaches (SetStep cmp hash) S (ht.calls cmp hash cs).2 S' ∧
      (ht.calls cmp hash cs).1.map.Represents cmp hash S' := by
  induction cs generalizing ht S with
  | nil => exact ⟨S, .nil S, h⟩
  | cons c cs ih =>
    obtain ⟨T, hstep, hT⟩ := call_setStep hcmp h c
    obtain ⟨S', hrun, hS'⟩ := ih hT
    exact ⟨S', .cons hstep hrun, hS'⟩

end Qht

omit [DecidableEq P] in
theorem qhtInit_represents (nElems : BitVec 64) (autoResize : Bool) :
    (Qht.qhtInit nElems autoResize : Qht P).map.Represents cmp hash ∅ :=
  ⟨_, QhtMap.holds_create (qhtElemsToBuckets_pos nElems), fun p => by simp⟩

theorem map_fst_calls (ht : Qht P) (cs : List (QhtCall P σ)) :
    (ht.calls cmp hash cs).2.map Prod.fst = cs := by
  induction cs generalizing ht with
  | nil => rfl
  | cons c cs ih => exact congrArg (c :: ·) (ih _)

/-- The answers to every sequence of calls are those of a set that starts empty, and no empty slot
precedes an occupied one in any chain. -/
theorem qht_calls_refine_set (hcmp : Equivalence fun p q => cmp p q = true) (nElems : BitVec 64)
    (autoResize : Bool) (cs : List (QhtCall P σ)) :
    ((Qht.qhtInit nElems autoResize).calls cmp hash cs).2.map Prod.fst = cs ∧
      (∃ S, Runs.Reaches (SetStep cmp hash) ∅
        ((Qht.qhtInit nElems autoResize).calls cmp hash cs).2 S) ∧
      ∀ i, Packed (((Qht.qhtInit nElems autoResize).calls cmp hash cs).1.map.buckets i) := by
  obtain ⟨S, hrun, hS⟩ := Qht.calls_setStep hcmp (qhtInit_represents cmp hash nElems autoResize) cs
  exact ⟨map_fst_calls cmp hash _ cs, ⟨S, hrun⟩, hS.packed⟩

def sameDigit (p q : ℕ) : Bool := p % 10 = q % 10

theorem sameDigit_equivalence : Equivalence fun p q => sameDigit p q = true := by
  refine ⟨fun p => ?_, fun {p q} h => ?_, fun {p q r} h h' => ?_⟩
  · simp [sameDigit]
  · simp only [sameDigit, decide_eq_true_eq] at h ⊢
    exact h.symm
  · simp only [sameDigit, decide_eq_true_eq] at h h' ⊢
    exact h.trans h'

theorem qht_calls_refine_set_digits :
    ∃ S, Runs.Reaches (SetStep sameDigit fun _ => 7) ∅
      ((Qht.qhtInit 0 true).calls sameDigit (fun _ => 7)
        [.insert 3, .insert 13, .lookup 23, .iterRemove (fun n p _ => (decide (p < n), n + 1)) 4,
          .resize 64, .remove 3]).2 S :=
  (qht_calls_refine_set sameDigit (fun _ => 7) sameDigit_equivalence 0 true _).2.1

end Iqemu64
