import Mathlib.Tactic

/-!
# Byte-addressed memory and little-endian words

A memory is a function from natural-number addresses to bytes. All stores are instances of
`write`, which replaces one interval of bytes; `memcpy` reads its source before it writes, and
`copyForward` moves one byte at a time in ascending order, as a string instruction does. The two
agree when the destination does not meet the source.

`leWord` reads consecutive bytes as a little-endian number and `byteAt` reads one byte of a number
back. Both directions of this correspondence are stated once here.
-/

namespace ByteMemory

abbrev Mem := ℕ → UInt8

def byteAt (v k : ℕ) : UInt8 := UInt8.ofNat (v / 256 ^ k)

def leWord : ℕ → (ℕ → UInt8) → ℕ
  | 0, _ => 0
  | n + 1, f => (f 0).toNat + 256 * leWord n (fun k => f (k + 1))

theorem leWord_lt (n : ℕ) (f : ℕ → UInt8) : leWord n f < 256 ^ n := by
  induction n generalizing f with
  | zero => simp [leWord]
  | succ n ih =>
    have hb := (f 0).toNat_lt
    have ht := ih (fun k => f (k + 1))
    rw [leWord]
    omega

theorem leWord_congr (n : ℕ) (f g : ℕ → UInt8) (h : ∀ k < n, f k = g k) :
    leWord n f = leWord n g := by
  induction n generalizing f g with
  | zero => rfl
  | succ n ih =>
    rw [leWord, leWord, h 0 (Nat.succ_pos n),
      ih _ _ (fun k hk => h (k + 1) (Nat.succ_lt_succ hk))]

theorem byteAt_zero (v : ℕ) : byteAt v 0 = UInt8.ofNat v := by simp [byteAt]

theorem byteAt_succ (v k : ℕ) : byteAt v (k + 1) = byteAt (v / 256) k := by
  rw [byteAt, byteAt, pow_succ', Nat.div_div_eq_div_mul]

theorem byteAt_leWord (n : ℕ) (f : ℕ → UInt8) (k : ℕ) (hk : k < n) :
    byteAt (leWord n f) k = f k := by
  induction n generalizing f k with
  | zero => omega
  | succ n ih =>
    have hb := (f 0).toNat_lt
    cases k with
    | zero =>
      apply UInt8.toNat_inj.mp
      rw [byteAt_zero, leWord, UInt8.toNat_ofNat']
      omega
    | succ k =>
      have hdiv : leWord (n + 1) f / 256 = leWord n (fun j => f (j + 1)) := by
        rw [leWord]
        omega
      rw [byteAt_succ, hdiv]
      exact ih (fun j => f (j + 1)) k (by omega)

theorem leWord_byteAt (n v : ℕ) : leWord n (byteAt v) = v % 256 ^ n := by
  induction n generalizing v with
  | zero => simp [leWord, Nat.mod_one]
  | succ n ih =>
    have htail : (fun k => byteAt v (k + 1)) = byteAt (v / 256) := by
      funext k
      exact byteAt_succ v k
    have hpow : 256 ^ (n + 1) = 256 * 256 ^ n := pow_succ' 256 n
    rw [leWord, htail, ih, byteAt_zero, UInt8.toNat_ofNat', hpow, Nat.mod_mul]

/-- Reducing a number modulo a power of 256 keeps its low bytes. -/
theorem byteAt_mod (v n k : ℕ) (hk : k < n) : byteAt (v % 256 ^ n) k = byteAt v k := by
  rw [← leWord_byteAt, byteAt_leWord n _ k hk]

namespace Mem

def write (m : Mem) (dst n : ℕ) (f : ℕ → UInt8) : Mem :=
  fun a => if dst ≤ a ∧ a < dst + n then f (a - dst) else m a

def memcpy (m : Mem) (dst src n : ℕ) : Mem := m.write dst n (fun k => m (src + k))

def storeWord (m : Mem) (dst n v : ℕ) : Mem := m.write dst n (byteAt v)

def loadWord (m : Mem) (src n : ℕ) : ℕ := leWord n (fun k => m (src + k))

def copyForward (m : Mem) (dst src : ℕ) : ℕ → Mem
  | 0 => m
  | n + 1 => copyForward (m.write dst 1 (fun _ => m src)) (dst + 1) (src + 1) n

theorem write_inside (m : Mem) (dst n : ℕ) (f : ℕ → UInt8) (k : ℕ) (hk : k < n) :
    m.write dst n f (dst + k) = f k := by
  rw [write, if_pos (by omega), Nat.add_sub_cancel_left]

theorem write_outside (m : Mem) (dst n : ℕ) (f : ℕ → UInt8) (a : ℕ)
    (ha : a < dst ∨ dst + n ≤ a) : m.write dst n f a = m a := by
  rw [write, if_neg (by omega)]

theorem memcpy_inside (m : Mem) (dst src n k : ℕ) (hk : k < n) :
    m.memcpy dst src n (dst + k) = m (src + k) := write_inside m dst n _ k hk

theorem memcpy_outside (m : Mem) (dst src n a : ℕ) (ha : a < dst ∨ dst + n ≤ a) :
    m.memcpy dst src n a = m a := write_outside m dst n _ a ha

theorem storeWord_inside (m : Mem) (dst n v k : ℕ) (hk : k < n) :
    m.storeWord dst n v (dst + k) = byteAt v k := write_inside m dst n _ k hk

theorem storeWord_outside (m : Mem) (dst n v a : ℕ) (ha : a < dst ∨ dst + n ≤ a) :
    m.storeWord dst n v a = m a := write_outside m dst n _ a ha

theorem byteAt_loadWord (m : Mem) (src n k : ℕ) (hk : k < n) :
    byteAt (m.loadWord src n) k = m (src + k) := byteAt_leWord n _ k hk

theorem loadWord_congr (m m' : Mem) (src n : ℕ) (h : ∀ k < n, m (src + k) = m' (src + k)) :
    m.loadWord src n = m'.loadWord src n := leWord_congr n _ _ h

theorem loadWord_zero (src n : ℕ) : loadWord (fun _ => 0) src n = 0 := by
  unfold loadWord
  induction n with
  | zero => rfl
  | succ n ih =>
    rw [leWord, ih]
    rfl

theorem loadWord_lt (m : Mem) (src n : ℕ) : m.loadWord src n < 256 ^ n := leWord_lt n _

theorem loadWord_storeWord (m : Mem) (dst n v : ℕ) :
    (m.storeWord dst n v).loadWord dst n = v % 256 ^ n := by
  rw [← leWord_byteAt]
  exact leWord_congr n _ _ (fun k hk => storeWord_inside m dst n v k hk)

/-- Storing the low bytes of a loaded word copies them. -/
theorem storeWord_loadWord_of_le (m : Mem) (dst src : ℕ) {n w : ℕ} (h : n ≤ w) :
    m.storeWord dst n (m.loadWord src w) = m.memcpy dst src n := by
  funext a
  by_cases ha : dst ≤ a ∧ a < dst + n
  · obtain ⟨k, rfl⟩ := Nat.exists_eq_add_of_le ha.1
    rw [storeWord_inside m _ _ _ k (by omega), memcpy_inside m _ _ _ k (by omega),
      byteAt_loadWord m _ _ k (by omega)]
  · rw [storeWord_outside m _ _ _ a (by omega), memcpy_outside m _ _ _ a (by omega)]

theorem copyForward_outside (n : ℕ) (m : Mem) (dst src a : ℕ) (ha : a < dst ∨ dst + n ≤ a) :
    m.copyForward dst src n a = m a := by
  induction n generalizing m dst src with
  | zero => rfl
  | succ n ih =>
    rw [copyForward, ih _ _ _ (by omega)]
    exact write_outside m dst 1 _ a (by omega)

/-- Over disjoint intervals the byte-by-byte copy is a block copy. -/
theorem copyForward_inside (n : ℕ) (m : Mem) (dst src k : ℕ) (hk : k < n)
    (hd : dst + n ≤ src ∨ src + n ≤ dst) : m.copyForward dst src n (dst + k) = m (src + k) := by
  induction n generalizing m dst src k with
  | zero => omega
  | succ n ih =>
    rw [copyForward]
    cases k with
    | zero =>
      rw [copyForward_outside n _ _ _ _ (by omega)]
      exact write_inside m dst 1 _ 0 (by omega)
    | succ k =>
      have hi := ih (m.write dst 1 (fun _ => m src)) (dst + 1) (src + 1) k (by omega) (by omega)
      rw [show dst + (k + 1) = dst + 1 + k by omega, hi,
        write_outside m dst 1 _ _ (by omega)]
      congr 1
      omega

end Mem

section Widening

def widen (signed : Bool) (bits : ℕ) (v : BitVec 64) : BitVec 64 :=
  let low := v.setWidth bits
  (if signed then low.signExtend 32 else low.setWidth 32).setWidth 64

theorem toNat_ofNat_loadWord (m : Mem) (a n : ℕ) (hn : n ≤ 8) :
    (BitVec.ofNat 64 (m.loadWord a n)).toNat = m.loadWord a n := by
  have h := m.loadWord_lt a n
  have hp : 256 ^ n ≤ 256 ^ 8 := Nat.pow_le_pow_right (by norm_num) hn
  apply Nat.mod_eq_of_lt
  omega

theorem byteAt_ofNat_loadWord (m : Mem) (a n k : ℕ) (hn : n ≤ 8) (hk : k < n) :
    byteAt (BitVec.ofNat 64 (m.loadWord a n)).toNat k = m (a + k) := by
  rw [toNat_ofNat_loadWord m a n hn, m.byteAt_loadWord a n k hk]

def extendBytes (signed : Bool) (w : ℕ) (f : ℕ → UInt8) (k : ℕ) : UInt8 :=
  if k < w then f k else if signed && decide (128 ≤ (f (w - 1)).toNat) then 255 else 0

theorem extendBytes_congr (signed : Bool) (w : ℕ) (f g : ℕ → UInt8) (hw : 0 < w)
    (h : ∀ k < w, f k = g k) (k : ℕ) : extendBytes signed w f k = extendBytes signed w g k := by
  unfold extendBytes
  rw [h (w - 1) (by omega)]
  by_cases hk : k < w
  · rw [if_pos hk, if_pos hk, h k hk]
  · rw [if_neg hk, if_neg hk]

theorem toNat_byteAt (v k : ℕ) : (byteAt v k).toNat = v / 256 ^ k % 256 := by
  simp [byteAt]

theorem toNat_widen_zero (v : BitVec 64) (w : ℕ) (hw : w ≤ 32) :
    (widen false w v).toNat = v.toNat % 2 ^ w := by
  have hp : 2 ^ w ≤ 2 ^ 32 := Nat.pow_le_pow_right (by norm_num) hw
  simp only [widen, Bool.false_eq_true, if_false, BitVec.toNat_setWidth]
  rw [Nat.mod_eq_of_lt (by omega), Nat.mod_eq_of_lt (by omega)]

theorem toNat_widen_sign (v : BitVec 64) (w : ℕ) (hw : w ≤ 32) :
    (widen true w v).toNat =
      v.toNat % 2 ^ w + if 2 ^ (w - 1) ≤ v.toNat % 2 ^ w then 2 ^ 32 - 2 ^ w else 0 := by
  have hp : 2 ^ w ≤ 2 ^ 32 := Nat.pow_le_pow_right (by norm_num) hw
  simp only [widen, if_true, BitVec.toNat_setWidth, BitVec.toNat_signExtend, BitVec.msb_eq_decide,
    decide_eq_true_eq]
  rw [Nat.mod_eq_of_lt (show v.toNat % 2 ^ w < 2 ^ 32 by omega)]
  split_ifs <;> rw [Nat.mod_eq_of_lt (by omega)]

theorem byteAt_widen_eight (signed : Bool) (v : BitVec 64) (k : ℕ) (hk : k < 4) :
    byteAt (widen signed 8 v).toNat k = extendBytes signed 1 (byteAt v.toNat) k := by
  apply UInt8.toNat_inj.mp
  cases signed with
  | false =>
    rw [toNat_widen_zero v 8 (by norm_num)]
    interval_cases k <;> simp [extendBytes, toNat_byteAt] <;> omega
  | true =>
    rw [toNat_widen_sign v 8 (by norm_num)]
    by_cases hs : 128 ≤ v.toNat % 256
    · interval_cases k <;> simp [extendBytes, toNat_byteAt, hs] <;> omega
    · interval_cases k <;> simp [extendBytes, toNat_byteAt, hs] <;> omega

theorem byteAt_widen_sixteen (signed : Bool) (v : BitVec 64) (k : ℕ) (hk : k < 4) :
    byteAt (widen signed 16 v).toNat k = extendBytes signed 2 (byteAt v.toNat) k := by
  apply UInt8.toNat_inj.mp
  cases signed with
  | false =>
    rw [toNat_widen_zero v 16 (by norm_num)]
    interval_cases k <;> simp [extendBytes, toNat_byteAt] <;> omega
  | true =>
    rw [toNat_widen_sign v 16 (by norm_num)]
    by_cases hs : 128 ≤ v.toNat / 256 % 256
    · rw [if_pos (show 2 ^ (16 - 1) ≤ v.toNat % 2 ^ 16 by omega)]
      interval_cases k <;> simp [extendBytes, toNat_byteAt, hs] <;> omega
    · rw [if_neg (show ¬ 2 ^ (16 - 1) ≤ v.toNat % 2 ^ 16 by omega)]
      interval_cases k <;> simp [extendBytes, toNat_byteAt, hs] <;> omega

end Widening

end ByteMemory
