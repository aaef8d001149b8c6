import Iqemu64.ByteMemory

/-!
# Sequences of memory moves

A move copies a block and may then widen the copied integer to 32 bits in place. Moves run in order,
each reading what the earlier ones left. A byte that a move wrote survives unless a later move covers
it, and a byte outside all destinations keeps its value.
-/

namespace ByteMemory
open List

namespace Mem

def widenAt (m : Mem) (dst : ℕ) : Option (Bool × ℕ) → Mem
  | none => m
  | some (signed, width) =>
    m.storeWord dst 4 (widen signed (8 * width) (BitVec.ofNat 64 (m.loadWord dst width))).toNat

end Mem

structure Move where
  dst : ℕ
  src : ℕ
  size : ℕ
  widening : Option (Bool × ℕ) := none
  deriving DecidableEq, Repr

namespace Move

def run (mv : Move) (m : Mem) : Mem := (m.memcpy mv.dst mv.src mv.size).widenAt mv.dst mv.widening

def slot (mv : Move) : ℕ := if mv.widening = none then mv.size else max mv.size 4

theorem slot_of_none {mv : Move} (h : mv.widening = none) : mv.slot = mv.size := if_pos h

theorem slot_of_ne_none {mv : Move} (h : mv.widening ≠ none) : mv.slot = max mv.size 4 := if_neg h

def Sound (mv : Move) : Prop :=
  ∀ signed width, mv.widening = some (signed, width) → (width = 1 ∨ width = 2) ∧ width ≤ mv.size

def Covers (mv : Move) (a : ℕ) : Prop := mv.dst ≤ a ∧ a < mv.dst + mv.slot

theorem run_outside (mv : Move) (m : Mem) {a : ℕ} (h : ¬ mv.Covers a) : mv.run m a = m a := by
  unfold Covers slot at h
  cases hw : mv.widening with
  | none =>
    rw [hw, if_pos rfl] at h
    rw [run, hw]
    exact m.memcpy_outside _ _ _ a (by omega)
  | some w =>
    rw [hw, if_neg (by simp)] at h
    rw [run, hw, Mem.widenAt, Mem.storeWord_outside _ _ _ _ a (by omega)]
    exact m.memcpy_outside _ _ _ a (by omega)

variable {k : ℕ}

theorem run_inside (mv : Move) (m : Mem) (hk : k < mv.size)
    (hw : mv.widening = none ∨ 4 ≤ k) : mv.run m (mv.dst + k) = m (mv.src + k) := by
  cases h : mv.widening with
  | none =>
    rw [run, h]
    exact m.memcpy_inside _ _ _ k hk
  | some w =>
    have h4 : 4 ≤ k := by simpa [h] using hw
    rw [run, h, Mem.widenAt, Mem.storeWord_outside _ _ _ _ _ (by omega)]
    exact m.memcpy_inside _ _ _ k hk

theorem byteAt_widen (signed : Bool) {width : ℕ} (hw : width = 1 ∨ width = 2) (v : BitVec 64) (k : ℕ)
    (hk : k < 4) : byteAt (widen signed (8 * width) v).toNat k =
      extendBytes signed width (byteAt v.toNat) k := by
  rcases hw with rfl | rfl
  · exact byteAt_widen_eight signed v k hk
  · exact byteAt_widen_sixteen signed v k hk

theorem run_widened (mv : Move) (m : Mem) (hs : mv.Sound) {signed : Bool} {width : ℕ}
    (hw : mv.widening = some (signed, width)) (hk : k < 4) :
    mv.run m (mv.dst + k) = extendBytes signed width (fun i => m (mv.src + i)) k := by
  obtain ⟨hwidth, hsize⟩ := hs signed width hw
  rw [run, hw, Mem.widenAt, Mem.storeWord_inside _ _ _ _ k hk, byteAt_widen signed hwidth _ k hk]
  apply extendBytes_congr signed width _ _ (by omega)
  intro i hi
  rw [byteAt_ofNat_loadWord _ _ _ _ (by omega) hi]
  exact m.memcpy_inside _ _ _ i (by omega)

/-- Moves of the same kind from the same bytes write the same bytes. -/
theorem run_congr (mv mv' : Move) {m m' : Mem} (hsize : mv.size = mv'.size)
    (hw : mv.widening = mv'.widening) (hs : mv.Sound)
    (hsrc : ∀ i < mv.size, m (mv.src + i) = m' (mv'.src + i)) (hk : k < mv.size) :
    mv.run m (mv.dst + k) = mv'.run m' (mv'.dst + k) := by
  cases hwide : mv.widening with
  | none =>
    rw [mv.run_inside m hk (Or.inl hwide), mv'.run_inside m' (hsize ▸ hk) (Or.inl (hw ▸ hwide))]
    exact hsrc k hk
  | some w =>
    obtain ⟨signed, width⟩ := w
    obtain ⟨hwidth, hle⟩ := hs signed width hwide
    have hs' : mv'.Sound := fun sg wd h => by
      rw [← hsize]
      exact hs sg wd (hw.trans h)
    by_cases h4 : k < 4
    · rw [mv.run_widened m hs hwide h4, mv'.run_widened m' hs' (hw ▸ hwide) h4]
      exact extendBytes_congr signed width _ _ (by omega) (fun i hi => hsrc i (by omega)) k
    · rw [mv.run_inside m hk (Or.inr (by omega)), mv'.run_inside m' (hsize ▸ hk) (Or.inr (by omega))]
      exact hsrc k hk

end Move

def runMoves : List Move → Mem → Mem
  | [], m => m
  | mv :: mvs, m => runMoves mvs (mv.run m)

theorem runMoves_append (l₁ l₂ : List Move) (m : Mem) :
    runMoves (l₁ ++ l₂) m = runMoves l₂ (runMoves l₁ m) := by
  induction l₁ generalizing m with
  | nil => rfl
  | cons mv mvs ih => exact ih (mv.run m)

variable {mvs : List Move} {a : ℕ}

theorem runMoves_outside (m : Mem) (h : ∀ mv ∈ mvs, ¬ mv.Covers a) :
    runMoves mvs m a = m a := by
  induction mvs generalizing m with
  | nil => rfl
  | cons mv mvs ih =>
    rw [runMoves, ih (mv.run m) fun q hq => h q (mem_cons_of_mem mv hq)]
    exact mv.run_outside m (h mv mem_cons_self)

variable {mv : Move}

/-- A byte that no later move covers ends up as its move alone would leave it, from a memory that
differs from the initial one only inside destinations. -/
theorem runMoves_of_later (hmv : mv ∈ mvs)
    (hlater : mvs.Pairwise fun p q => p = mv → ¬ q.Covers a) (m : Mem) :
    ∃ m', (∀ b, (∀ q ∈ mvs, ¬ q.Covers b) → m' b = m b) ∧ runMoves mvs m a = mv.run m' a := by
  obtain ⟨l₁, l₂, rfl⟩ := append_of_mem hmv
  refine ⟨runMoves l₁ m, fun b hb => ?_, ?_⟩
  · exact runMoves_outside m fun q hq => hb q (mem_append_left _ hq)
  · rw [runMoves_append, runMoves]
    refine runMoves_outside _ fun q hq => ?_
    exact (pairwise_cons.mp (pairwise_append.mp hlater).2.1).1 q hq rfl

theorem runMoves_of_mem
    (hd : mvs.Pairwise fun p q => ∀ a, p.Covers a → ¬ q.Covers a) (hmv : mv ∈ mvs) (ha : mv.Covers a) (m : Mem) :
    ∃ m', (∀ b, (∀ q ∈ mvs, ¬ q.Covers b) → m' b = m b) ∧ runMoves mvs m a = mv.run m' a := by
  refine runMoves_of_later hmv (hd.imp fun h hp => ?_) m
  rw [hp] at h
  exact h a ha

structure Brings (Own : ℕ → Prop) (n : ℕ) (dst src : ℕ → ℕ) (mvs : List Move) : Prop where
  own : ∀ mv ∈ mvs, ∀ a, mv.Covers a → Own a
  byte : ∀ k < n, ∃ mv ∈ mvs, ∃ i < mv.size, mv.widening = none ∧ mv.dst + i = dst k ∧
    mv.src + i = src k ∧ mvs.Pairwise fun p q => p = mv → ¬ q.Covers (dst k)
  source : ∀ k < n, ¬ Own (src k)

variable {Own : ℕ → Prop} {n : ℕ} {dst src : ℕ → ℕ}

theorem Brings.outside
    (h : Brings Own n dst src mvs) (m : Mem) (ha : ¬ Own a) : runMoves mvs m a = m a :=
  runMoves_outside m fun mv hmv hc => ha (h.own mv hmv a hc)

theorem Brings.inside
    (h : Brings Own n dst src mvs) (m : Mem) {k : ℕ} (hk : k < n) :
    runMoves mvs m (dst k) = m (src k) := by
  obtain ⟨mv, hmv, i, hi, hw, hdst, hsrc, hlater⟩ := h.byte k hk
  obtain ⟨m', hm', hrun⟩ := runMoves_of_later hmv hlater m
  rw [hrun, ← hdst, mv.run_inside m' hi (Or.inl hw), hsrc]
  exact hm' _ fun q hq hc => h.source k hk (h.own q hq _ hc)

/-- Moves in ascending order, `w` bytes of each being safe from the later ones. -/
theorem brings_of_ascending {w : ℕ}
    (hown : ∀ mv ∈ mvs, ∀ a, mv.Covers a → Own a) (hsource : ∀ k < n, ¬ Own (src k))
    (hasc : mvs.Pairwise fun p q => p.dst + w ≤ q.dst)
    (hbyte : ∀ k < n, ∃ mv ∈ mvs, ∃ i < mv.size, mv.widening = none ∧ mv.dst + i = dst k ∧
      mv.src + i = src k ∧ i < w) : Brings Own n dst src mvs := by
  refine ⟨hown, fun k hk => ?_, hsource⟩
  obtain ⟨mv, hmv, i, hi, hw, hdst, hsrc, hiw⟩ := hbyte k hk
  refine ⟨mv, hmv, i, hi, hw, hdst, hsrc, hasc.imp fun h hp hc => ?_⟩
  rw [hp] at h
  have := hc.1
  omega

/-- Numbered moves in ascending order, each bringing `w` bytes. -/
theorem brings_map_range {w count : ℕ} {f : ℕ → Move}
    (hw : 0 < w) (hn : n ≤ w * count) (hown : ∀ j < count, ∀ a, (f j).Covers a → Own a)
    (hsource : ∀ k < n, ¬ Own (src k))
    (hasc : ∀ i j, i < j → j < count → (f i).dst + w ≤ (f j).dst)
    (hbyte : ∀ k < n, k % w < (f (k / w)).size ∧ (f (k / w)).widening = none ∧
      (f (k / w)).dst + k % w = dst k ∧ (f (k / w)).src + k % w = src k) :
    Brings Own n dst src ((range count).map f) := by
  refine brings_of_ascending (w := w) ?_ hsource ?_ fun k hk => ?_
  · intro mv hmv
    obtain ⟨j, hj, rfl⟩ := mem_map.mp hmv
    exact hown j (mem_range.mp hj)
  · rw [pairwise_map]
    refine pairwise_lt_range.imp_of_mem fun _ hj hlt => ?_
    exact hasc _ _ hlt (mem_range.mp hj)
  · obtain ⟨hi, hnone, hdst, hsrc⟩ := hbyte k hk
    have hj : k / w < count := (Nat.div_lt_iff_lt_mul hw).mpr (by rw [Nat.mul_comm]; omega)
    exact ⟨f (k / w), mem_map_of_mem (mem_range.mpr hj), k % w, hi, hnone, hdst, hsrc,
      Nat.mod_lt k hw⟩

theorem brings_one
    (hown : ∀ a, mv.Covers a → Own a) (hsource : ∀ k < n, ¬ Own (src k)) (hnone : mv.widening = none)
    (hbyte : ∀ k < n, k < mv.size ∧ mv.dst + k = dst k ∧ mv.src + k = src k) :
    Brings Own n dst src [mv] := by
  refine ⟨fun q hq => ?_, fun k hk => ?_, hsource⟩
  · rw [mem_singleton.mp hq]
    exact hown
  · obtain ⟨hlt, hdst, hsrc⟩ := hbyte k hk
    exact ⟨mv, mem_singleton_self mv, k, hlt, hnone, hdst, hsrc, pairwise_singleton _ _⟩

/-- Two moves. The second one may overwrite bytes of the first that are not needed. -/
theorem brings_two {p q : Move}
    (hp : ∀ a, p.Covers a → Own a) (hq : ∀ a, q.Covers a → Own a) (hsource : ∀ k < n, ¬ Own (src k))
    (hpn : p.widening = none) (hqn : q.widening = none) (hne : p.dst ≠ q.dst)
    (hbyte : ∀ k < n, (∃ i < p.size, p.dst + i = dst k ∧ p.src + i = src k ∧
        (dst k < q.dst ∨ q.dst + q.size ≤ dst k)) ∨
      ∃ i < q.size, q.dst + i = dst k ∧ q.src + i = src k) :
    Brings Own n dst src [p, q] := by
  have hne' : p ≠ q := fun h => hne (congrArg Move.dst h)
  refine ⟨fun mv hmv => ?_, fun k hk => ?_, hsource⟩
  · rcases mem_pair.mp hmv with rfl | rfl
    · exact hp
    · exact hq
  · rcases hbyte k hk with ⟨i, hi, hdst, hsrc, hout⟩ | ⟨i, hi, hdst, hsrc⟩
    · refine ⟨p, by simp, i, hi, hpn, hdst, hsrc, pairwise_pair.mpr fun _ hc => ?_⟩
      rw [Move.Covers, Move.slot_of_none hqn] at hc
      omega
    · exact ⟨q, by simp, i, hi, hqn, hdst, hsrc, pairwise_pair.mpr fun h => absurd h hne'⟩

end ByteMemory
