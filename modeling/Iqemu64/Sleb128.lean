import Mathlib.Data.BitVec

/-!
# Signed LEB128

A 64-bit number as bytes of seven bits each, lowest first. All bytes but the last have bit 7 set, and
bit 6 of the last is the sign.
-/

namespace Sleb128
open BitVec

def low (val : BitVec 64) : BitVec 8 := val.setWidth 8 &&& 0x7f#8

def Fits (val : BitVec 64) : Prop :=
  val.sshiftRight 7 = 0 ∧ (low val).getLsbD 6 = false ∨
    val.sshiftRight 7 = -1 ∧ (low val).getLsbD 6 = true

instance (val : BitVec 64) : Decidable (Fits val) := inferInstanceAs (Decidable (_ ∨ _))

theorem toInt_sshiftRight_seven (val : BitVec 64) : (val.sshiftRight 7).toInt = val.toInt / 128 := by
  rw [toInt_sshiftRight, Int.shiftRight_eq_div_pow]
  rfl

theorem natAbs_sshiftRight_lt {val : BitVec 64} (h : ¬ Fits val) :
    (val.sshiftRight 7).toInt.natAbs < val.toInt.natAbs := by
  have hzero : val.toInt ≠ 0 := by
    intro h0
    obtain rfl : val = 0 := eq_of_toInt_eq h0
    exact h (by decide)
  have hneg : val.toInt ≠ -1 := by
    intro h1
    obtain rfl : val = -1 := eq_of_toInt_eq h1
    exact h (by decide)
  rw [toInt_sshiftRight_seven]
  omega

def encode (val : BitVec 64) : List (BitVec 8) :=
  if Fits val then [low val] else (low val ||| 0x80#8) :: encode (val.sshiftRight 7)
termination_by val.toInt.natAbs
decreasing_by exact natAbs_sshiftRight_lt ‹_›

def decodeLoop : List (BitVec 8) → BitVec 64 → ℕ → Option (BitVec 64 × List (BitVec 8))
  | [], _, _ => none
  | byte :: bytes, val, shift =>
    let val := val ||| ((byte &&& 0x7f#8).setWidth 64 <<< shift)
    if byte.getLsbD 7 then decodeLoop bytes val (shift + 7)
    else if shift + 7 < 64 ∧ byte.getLsbD 6 then
      some (val ||| (-1 : BitVec 64) <<< (shift + 7), bytes)
    else some (val, bytes)

def decode (bytes : List (BitVec 8)) : Option (BitVec 64 × List (BitVec 8)) :=
  decodeLoop bytes 0 0

theorem low_getLsbD_seven (val : BitVec 64) : (low val).getLsbD 7 = false := by
  simp [low]

theorem getLsbD_127 {w i : ℕ} (hw : 7 ≤ w) : (BitVec.ofNat w 127).getLsbD i = decide (i < 7) := by
  rw [getLsbD_ofNat, show (127 : ℕ) = 2 ^ 7 - 1 from rfl, Nat.testBit_two_pow_sub_one]
  by_cases hi : i < 7
  · simp [show i < w by omega]
  · simp [hi]

theorem setWidth_low (val : BitVec 64) : (low val &&& 0x7f#8).setWidth 64 = val &&& 0x7f#64 := by
  apply eq_of_getLsbD_eq
  intro i hi
  simp only [low, getLsbD_setWidth, getLsbD_and, getLsbD_127 (show 7 ≤ 8 by decide),
    getLsbD_127 (show 7 ≤ 64 by decide)]
  by_cases h : i < 7
  · simp [hi, show i < 8 by omega]
  · simp [h]

theorem setWidth_low_more (val : BitVec 64) :
    ((low val ||| 0x80#8) &&& 0x7f#8).setWidth 64 = val &&& 0x7f#64 := by
  rw [← setWidth_low]
  congr 1
  apply eq_of_getLsbD_eq
  intro i hi
  have hbit : (0x80#8).getLsbD i = decide (i = 7) :=
    (by decide : ∀ i : Fin 8, (0x80#8).getLsbD i = decide (i.val = 7)) ⟨i, hi⟩
  simp only [getLsbD_and, getLsbD_or, hbit]
  by_cases h : i = 7
  · simp [h]
  · simp [h]

theorem and_or_sshiftRight (val : BitVec 64) :
    (val &&& 0x7f#64) ||| (val.sshiftRight 7 <<< 7) = val := by
  apply eq_of_getLsbD_eq
  intro i hi
  simp only [getLsbD_or, getLsbD_and, getLsbD_127 (show 7 ≤ 64 by decide), getLsbD_shiftLeft,
    getLsbD_sshiftRight]
  by_cases h : i < 7
  · simp [h]
  · simp [h, hi, show 7 + (i - 7) = i by omega]
    omega

theorem shiftLeft_split (val : BitVec 64) (shift : ℕ) :
    val <<< shift =
      ((val &&& 0x7f#64) <<< shift) ||| (val.sshiftRight 7 <<< (shift + 7)) := by
  rw [Nat.add_comm, shiftLeft_add, ← shiftLeft_or_distrib, and_or_sshiftRight]

theorem decodeLoop_encode (val acc : BitVec 64) (shift : ℕ) (rest : List (BitVec 8)) :
    decodeLoop (encode val ++ rest) acc shift = some (acc ||| val <<< shift, rest) := by
  induction val using encode.induct generalizing acc shift with
  | case1 val hfits =>
    rw [encode, if_pos hfits, List.singleton_append, decodeLoop, low_getLsbD_seven, setWidth_low,
      shiftLeft_split val]
    obtain ⟨hrest, hsign⟩ | ⟨hrest, hsign⟩ := hfits
    · simp only [hrest, hsign, Bool.false_eq_true, and_false, if_false, BitVec.zero_shiftLeft,
        BitVec.or_zero, BitVec.ofNat_eq_ofNat]
    · by_cases hshift : shift + 7 < 64
      · simp only [hrest, hsign, hshift, Bool.false_eq_true, and_true, if_false, if_true,
          BitVec.or_assoc]
      · have hout : (-1 : BitVec 64) <<< (shift + 7) = 0#64 :=
          BitVec.shiftLeft_eq_zero (by omega)
        simp only [hrest, hout, hshift, Bool.false_eq_true, false_and, if_false, BitVec.or_zero]
  | case2 val hmore ih =>
    have hbit : (low val ||| 0x80#8).getLsbD 7 = true := by simp
    rw [encode, if_neg hmore, List.cons_append, decodeLoop, setWidth_low_more, if_pos hbit, ih,
      shiftLeft_split val, BitVec.or_assoc]

theorem decode_encode (val : BitVec 64) (rest : List (BitVec 8)) :
    decode (encode val ++ rest) = some (val, rest) := by
  rw [decode, decodeLoop_encode]
  simp

end Sleb128
