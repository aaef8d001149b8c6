import Iqemu64.PackedSlots
import Mathlib.Data.BitVec

/-!
# The hash table

A model of `util/qht.c` for one caller at a time, so that no lock is contended and no reader has to try
again. A chain of buckets is the list of its slots, four to a bucket; an empty slot has the null
pointer and the hash zero. Pointers are not null.
-/

namespace Iqemu64
open PackedSlots List

structure QhtEntry (P : Type) where
  pointer : P
  hash : BitVec 32
  deriving DecidableEq, Repr

abbrev QhtChain (P : Type) : Type := List (Option (QhtEntry P))

def qhtBucketEntries : ℕ := 4

def clz64 (x : BitVec 64) : ℕ := 64 - x.toNat.size

def pow2ceil (value : BitVec 64) : ℕ :=
  let n := clz64 (value - 1)
  if n = 0 then (if value = 0 then 1 else 0) else 2 ^ 63 >>> (n - 1)

def qhtElemsToBuckets (nElems : BitVec 64) : ℕ := pow2ceil (nElems / 4)

structure QhtMap (P : Type) where
  nBuckets : ℕ
  nAddedBuckets : ℕ
  buckets : ℕ → QhtChain P

namespace QhtMap

variable {P : Type} (map : QhtMap P)

def nAddedBucketsThreshold : ℕ := if map.nBuckets / 8 = 0 then 1 else map.nBuckets / 8

def needsResize : Bool := map.nAddedBuckets > map.nAddedBucketsThreshold

def toBucket (hash : BitVec 32) : ℕ := hash.toNat &&& (map.nBuckets - 1)

def setBucket (i : ℕ) (chain : QhtChain P) : QhtMap P :=
  { map with buckets := Function.update map.buckets i chain }

def create (nBuckets : ℕ) : QhtMap P where
  nBuckets := nBuckets
  nAddedBuckets := 0
  buckets := fun _ => replicate qhtBucketEntries none

end QhtMap

namespace QhtChain

variable {P : Type} [DecidableEq P] (cmp : P → P → Bool)

def doLookup (userp : P) (hash : BitVec 32) : QhtChain P → Option P
  | [] => none
  | some e :: chain =>
    if e.hash = hash ∧ cmp e.pointer userp = true then some e.pointer else doLookup userp hash chain
  | none :: chain => doLookup userp hash chain

/-- What the loop of `qht_insert__locked` ends with: an entry that is equal already, a chain in which
an empty slot has been filled, or no empty slot. -/
inductive InsertLoop (P : Type) where
  | existing (p : P)
  | found (chain : QhtChain P)
  | full

def insertLoop (p : P) (hash : BitVec 32) : QhtChain P → InsertLoop P
  | [] => .full
  | none :: chain => .found (some ⟨p, hash⟩ :: chain)
  | some e :: chain =>
    if e.hash = hash ∧ cmp e.pointer p = true then .existing e.pointer
    else
      match insertLoop p hash chain with
      | .existing q => .existing q
      | .found chain' => .found (some e :: chain')
      | .full => .full

def entryIsLast (chain : QhtChain P) (pos : ℕ) : Bool := (chain.getD (pos + 1) none).isNone

def entryMove (chain : QhtChain P) (i j : ℕ) : QhtChain P :=
  (chain.set i (chain.getD j none)).set j none

def removeEntry (chain : QhtChain P) (pos : ℕ) : QhtChain P :=
  if chain.entryIsLast pos then chain.set pos none
  else
    let orig := pos / qhtBucketEntries * qhtBucketEntries
    match (chain.drop orig).findIdx? Option.isNone with
    | some i => chain.entryMove pos (orig + i - 1)
    | none => chain.entryMove pos (chain.length - 1)

def findPointer (p : P) : QhtChain P → Option ℕ
  | some e :: chain => if e.pointer = p then some 0 else (findPointer p chain).map (· + 1)
  | _ => none

def removeLocked (chain : QhtChain P) (p : P) : QhtChain P × Bool :=
  match findPointer p chain with
  | some pos => (chain.removeEntry pos, true)
  | none => (chain, false)

def resetLocked : QhtChain P → QhtChain P
  | some _ :: chain => none :: resetLocked chain
  | chain => chain

def occupied (chain : QhtChain P) : ℕ := chain.countP Option.isSome

omit [DecidableEq P] in
theorem occupied_set (chain : QhtChain P) (pos : ℕ) (a v : Option (QhtEntry P))
    (h : chain[pos]? = some a) :
    occupied (chain.set pos v) + a.isSome.toNat = chain.occupied + v.isSome.toNat := by
  obtain ⟨hpos, rfl⟩ := List.getElem?_eq_some_iff.mp h
  have hmem : chain[pos].isSome = true → 0 < chain.countP Option.isSome := fun ha =>
    countP_pos_iff.mpr ⟨_, mem_of_getElem? h, ha⟩
  rw [occupied, countP_set hpos, occupied]
  cases ha : chain[pos].isSome with
  | false => cases v.isSome <;> simp
  | true =>
    have := hmem ha
    cases v.isSome <;> simp <;> omega

omit [DecidableEq P] in
/-- A removal leaves one entry less, whatever the chain looks like. -/
theorem occupied_removeEntry (chain : QhtChain P) (pos : ℕ) (e : QhtEntry P)
    (h : chain[pos]? = some (some e)) : (chain.removeEntry pos).occupied < chain.occupied := by
  have hmove : ∀ j, (chain.entryMove pos j).occupied < chain.occupied := by
    intro j
    have hset := occupied_set chain pos _ (chain.getD j none) h
    unfold entryMove
    rcases eq_or_ne pos j with rfl | hne
    · have := occupied_set chain pos _ none h
      rw [set_set]
      simp at this
      omega
    · cases hj : chain[j]? with
      | none =>
        have hlen : chain.length ≤ j := getElem?_eq_none_iff.mp hj
        rw [set_eq_of_length_le (by simpa using hlen)]
        simp [getD_eq_getElem?_getD, hj] at hset ⊢
        omega
      | some v =>
        have hj' : (chain.set pos (chain.getD j none))[j]? = some v := by
          rw [getElem?_set_ne hne, hj]
        have := occupied_set _ j _ none hj'
        simp [getD_eq_getElem?_getD, hj] at hset this ⊢
        omega
  unfold removeEntry
  split
  · have := occupied_set chain pos _ none h
    simp at this
    omega
  · simp only
    split
    · exact hmove _
    · exact hmove _

omit [DecidableEq P] in
theorem length_removeEntry (chain : QhtChain P) (pos : ℕ) :
    (chain.removeEntry pos).length = chain.length := by
  unfold removeEntry entryMove
  split
  · exact length_set
  · simp only
    split <;> simp

variable {σ : Type}

/-- `qht_bucket_iter` with `QHT_ITER_RM`: the callback keeps a state behind its user pointer. A position
whose entry has been removed is looked at again. -/
def bucketIter (f : σ → P → BitVec 32 → Bool × σ) (s : σ) (chain : QhtChain P) (pos : ℕ) :
    QhtChain P × σ :=
  match h : chain[pos]? with
  | some (some e) =>
    let r := f s e.pointer e.hash
    if r.1 then bucketIter f r.2 (chain.removeEntry pos) pos else bucketIter f r.2 chain (pos + 1)
  | _ => (chain, s)
termination_by chain.length - pos + chain.occupied
decreasing_by
  · have := occupied_removeEntry chain pos e h
    have := length_removeEntry chain pos
    omega
  · obtain ⟨hpos, -⟩ := List.getElem?_eq_some_iff.mp h
    omega

end QhtChain

namespace QhtMap

variable {P σ : Type} [DecidableEq P] (cmp : P → P → Bool) (map : QhtMap P)

def insertLocked (p : P) (hash : BitVec 32) : Option P × QhtMap P × Bool :=
  let i := map.toBucket hash
  match QhtChain.insertLoop cmp p hash (map.buckets i) with
  | .existing q => (some q, map, false)
  | .found chain => (none, map.setBucket i chain, false)
  | .full =>
    let chain := map.buckets i ++ some ⟨p, hash⟩ :: replicate (qhtBucketEntries - 1) none
    let map' := { map.setBucket i chain with nAddedBuckets := map.nAddedBuckets + 1 }
    (none, map', map'.needsResize)

def reset : QhtMap P :=
  { map with
    buckets := fun i => if i < map.nBuckets then QhtChain.resetLocked (map.buckets i) else map.buckets i }

def entries : List (QhtEntry P) := (range map.nBuckets).flatMap fun i => visited (map.buckets i)

def copy (new : QhtMap P) (e : QhtEntry P) : QhtMap P := (new.insertLocked cmp e.pointer e.hash).2.1

def iterRemove (f : σ → P → BitVec 32 → Bool × σ) (s : σ) : QhtMap P × σ :=
  (range map.nBuckets).foldl
    (fun ms i =>
      let r := QhtChain.bucketIter f ms.2 (ms.1.buckets i) 0
      (ms.1.setBucket i r.1, r.2))
    (map, s)

end QhtMap

/-- `struct qht`, without its lock and its comparison. -/
structure Qht (P : Type) where
  map : QhtMap P
  autoResize : Bool

namespace Qht

variable {P σ : Type} [DecidableEq P] (cmp : P → P → Bool) (ht : Qht P)

def qhtInit (nElems : BitVec 64) (autoResize : Bool) : Qht P :=
  ⟨.create (qhtElemsToBuckets nElems), autoResize⟩

def doResizeReset (new : Option (QhtMap P)) (reset : Bool) : Qht P :=
  let old := if reset then ht.map.reset else ht.map
  match new with
  | none => { ht with map := old }
  | some new => { ht with map := old.entries.foldl (QhtMap.copy cmp) new }

def growMaybe : Qht P :=
  if ht.map.needsResize then ht.doResizeReset cmp (some (.create (ht.map.nBuckets * 2))) false else ht

def qhtInsert (p : P) (hash : BitVec 32) : Qht P × Option P :=
  let r := ht.map.insertLocked cmp p hash
  let ht := { ht with map := r.2.1 }
  (if r.2.2 && ht.autoResize then ht.growMaybe cmp else ht, r.1)

def qhtLookup (userp : P) (hash : BitVec 32) : Option P :=
  QhtChain.doLookup cmp userp hash (ht.map.buckets (ht.map.toBucket hash))

def qhtRemove (p : P) (hash : BitVec 32) : Qht P × Bool :=
  let i := ht.map.toBucket hash
  let r := (ht.map.buckets i).removeLocked p
  ({ ht with map := ht.map.setBucket i r.1 }, r.2)

def qhtResize (nElems : BitVec 64) : Qht P × Bool :=
  let nBuckets := qhtElemsToBuckets nElems
  if nBuckets ≠ ht.map.nBuckets then (ht.doResizeReset cmp (some (.create nBuckets)) false, true)
  else (ht, false)

def qhtResetSize (nElems : BitVec 64) : Qht P × Bool :=
  let nBuckets := qhtElemsToBuckets nElems
  let new := if nBuckets ≠ ht.map.nBuckets then some (.create nBuckets) else none
  (ht.doResizeReset cmp new true, new.isSome)

def qhtIterRemove (f : σ → P → BitVec 32 → Bool × σ) (s : σ) : Qht P × σ :=
  let r := ht.map.iterRemove f s
  ({ ht with map := r.1 }, r.2)

end Qht

end Iqemu64
