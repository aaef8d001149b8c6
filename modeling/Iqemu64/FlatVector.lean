import Iqemu64.AaPrepCif

/-!
# AArch64 placement of flat types

On a flat type one turn of the argument loop depends on little: whether the type is a homogeneous
floating-point aggregate, and its size and alignment. `aaPlace` restates the turn in these terms.
-/

namespace Iqemu64
open List

theorem ffiAlign_of_mod_eq_zero {v a : ℕ} (ha : IsAlignment a) (hv : v % a = 0) :
    ffiAlign v a = v := by
  have h := ffiAlign_spec v ha
  rcases ha with rfl | rfl | rfl | rfl <;> omega

namespace FlatType

def vector : FlatType → Option (ℕ × ℕ)
  | scalar .float => some (1, 4)
  | scalar .double => some (1, 8)
  | scalar _ => none
  | struct s ss =>
    if (s = .float ∨ s = .double) ∧ (∀ x ∈ ss, x = s) ∧ ss.length ≤ 3 then
      some (ss.length + 1, s.size)
    else none

theorem endOffset_same (s : Scalar) (ss : List Scalar) (off : ℕ) (hall : ∀ x ∈ ss, x = s)
    (hoff : off % s.size = 0) : endOffset ss off = off + ss.length * s.size := by
  induction ss generalizing off with
  | nil => simp [endOffset]
  | cons x xs ih =>
    obtain rfl := hall x mem_cons_self
    rw [endOffset, ffiAlign_of_mod_eq_zero x.size_isAlignment hoff,
      ih _ (forall_mem_cons.mp hall).2 (by simpa using hoff),
      length_cons, Nat.succ_mul]
    omega

theorem maxAlign_same (s : Scalar) (ss : List Scalar) (hall : ∀ x ∈ ss, x = s) :
    maxAlign ss s.size = s.size := by
  induction ss with
  | nil => rfl
  | cons x xs ih =>
    obtain rfl := hall x mem_cons_self
    simp only [maxAlign, lt_irrefl]
    exact ih fun y hy => hall y (mem_cons_of_mem x hy)

theorem size_struct_same (s : Scalar) (ss : List Scalar) (hall : ∀ x ∈ ss, x = s) :
    (struct s ss).size = (ss.length + 1) * s.size := by
  have hall' : ∀ x ∈ s :: ss, x = s := by simpa using hall
  have hmax : maxAlign (s :: ss) 0 = s.size := by
    rw [maxAlign, if_neg (by omega), maxAlign_same s ss hall]
  rw [size, hmax, endOffset_same s _ 0 hall' (Nat.zero_mod _), Nat.zero_add]
  exact ffiAlign_of_mod_eq_zero s.size_isAlignment (Nat.mul_mod_left _ _)

theorem isHfa1Elements_scalars (candidate : FfiTypeTag) (ss : List Scalar) :
    isHfa1Elements candidate (ss.map Scalar.ffi) = ss.all fun x => x.tag == candidate := by
  induction ss with
  | nil => rfl
  | cons s ss ih =>
    have hs : s.ffi.type.isAggregate = false := by cases s <;> rfl
    rw [map_cons, isHfa1Elements, hs, ih]
    rfl

theorem hfaCandidate_scalars (s : Scalar) (ss : List Scalar) :
    hfaCandidate ((s :: ss).map Scalar.ffi) = some s.tag := by
  have hs : s.ffi.type.isAggregate = false := by cases s <;> rfl
  rw [map_cons, hfaCandidate, hs]
  rfl

def vfpCode (v : Option (ℕ × ℕ)) : ℕ :=
  match v with
  | none => 0
  | some (elems, width) => (if width = 4 then 2 else 3) * 4 + (4 - elems)

theorem tag_beq (x s : Scalar) : (x.tag == s.tag) = decide (x = s) := by
  cases x <;> cases s <;> rfl

theorem vfpEncode_false (candidate : FfiTypeTag) (size width : ℕ) :
    vfpEncode candidate size width false = 0 := by
  simp [vfpEncode]

theorem vfpEncode_mul (candidate : FfiTypeTag) (n width : ℕ) (hw : 0 < width) :
    vfpEncode candidate (n * width) width true =
      if n > 4 then 0 else candidate.code * 4 + (4 - n) := by
  simp [vfpEncode, Nat.mul_div_cancel n hw]

theorem isVfpType_struct (s : Scalar) (ss : List Scalar) :
    isVfpType (struct s ss).desc = some (vfpCode (struct s ss).vector) := by
  have htype : (struct s ss).desc.type = .struct := rfl
  have hel : (struct s ss).desc.elements = (s :: ss).map Scalar.ffi := rfl
  unfold isVfpType
  rw [htype, desc_size, hel, hfaCandidate_scalars, Option.map_some]
  simp only [isHfa1Elements_scalars, tag_beq]
  by_cases hs : s = .float ∨ s = .double
  · by_cases hall : ∀ x ∈ ss, x = s
    · -- the size is then the member count times the width
      have hsame : ((s :: ss).all fun x => decide (x = s)) = true := by simpa using hall
      have hv : (struct s ss).vector =
          if ss.length ≤ 3 then some (ss.length + 1, s.size) else none := by
        simp only [vector, hs, true_and, and_iff_right hall]
      rw [hsame, size_struct_same s ss hall, hv]
      rcases hs with rfl | rfl
      · simp only [Scalar.tag, Scalar.size, vfpEncode_mul _ _ 4 (by norm_num), FfiTypeTag.code]
        split_ifs <;> simp [vfpCode] <;> omega
      · simp only [Scalar.tag, Scalar.size, vfpEncode_mul _ _ 8 (by norm_num), FfiTypeTag.code]
        split_ifs <;> simp [vfpCode] <;> omega
    · have hsame : ((s :: ss).all fun x => decide (x = s)) = false := by simpa using hall
      have hv : (struct s ss).vector = none := if_neg fun h => hall h.2.1
      rw [hv, hsame]
      rcases hs with rfl | rfl <;> simp [Scalar.tag, vfpEncode_false, vfpCode]
  · have hv : (struct s ss).vector = none := if_neg fun h => hs h.1
    cases s <;> simp_all [Scalar.tag, vfpCode]

theorem isVfpType_scalar (s : Scalar) :
    isVfpType (scalar s).desc = some (vfpCode (scalar s).vector) := by
  cases s <;> rfl

theorem isVfpType_desc (t : FlatType) : isVfpType t.desc = some (vfpCode t.vector) := by
  cases t with
  | scalar s => exact isVfpType_scalar s
  | struct s ss => exact isVfpType_struct s ss

/-- A vector type has one to four members of width four or eight, and no padding. -/
theorem vector_spec {t : FlatType} {elems width : ℕ} (h : t.vector = some (elems, width)) :
    1 ≤ elems ∧ elems ≤ 4 ∧ (width = 4 ∨ width = 8) ∧ t.size = elems * width := by
  cases t with
  | scalar s =>
    cases s <;> simp only [vector] at h <;>
      obtain ⟨rfl, rfl⟩ := h <;> simp [size, Scalar.size]
  | struct s ss =>
    simp only [vector] at h
    split_ifs at h with hc
    obtain ⟨hs, hall, hlen⟩ := hc
    cases h
    refine ⟨by omega, by omega, ?_, size_struct_same s ss hall⟩
    rcases hs with rfl | rfl
    · exact Or.inl rfl
    · exact Or.inr rfl

theorem vfpCode_some {t : FlatType} {elems width : ℕ} (h : t.vector = some (elems, width)) :
    vfpCode t.vector ≠ 0 ∧ 4 - vfpCode t.vector % 4 = elems := by
  have hs := vector_spec h
  rw [h]
  simp only [vfpCode]
  split_ifs <;> omega

def aaPlace (t : FlatType) (al : AaAlloc) : ABIArgInfo AReg × AaAlloc :=
  match t.vector with
  | some (elems, _) =>
    let r := al.passInVector elems t.alignment t.size
    ({ loc := r.1, size := t.size }, r.2)
  | none =>
    if t.size > 16 then
      let r := al.passInGpr 1 t.alignment 8
      ({ loc := r.1, size := t.size, indirect := true }, r.2)
    else
      let r := al.passInGpr ((t.size + 7) / 8) t.alignment t.size
      ({ loc := r.1, size := t.size }, r.2)

theorem aaArg_desc (t : FlatType) (al : AaAlloc) : aaArg t.desc al = some (t.aaPlace al) := by
  have hvfp := isVfpType_desc t
  cases t with
  | scalar s => cases s <;> rfl
  | struct s ss =>
    have htype : (struct s ss).desc.type = .struct := rfl
    unfold aaArg aaPlace
    rw [htype]
    simp only [hvfp, Option.map_some, desc_size, desc_alignment]
    cases hv : (struct s ss).vector with
    | none => simp only [vfpCode, ne_eq, not_true_eq_false, if_false]
    | some v =>
      have hc := vfpCode_some hv
      rw [hv] at hc
      rw [if_pos hc.1, hc.2]

end FlatType

end Iqemu64
