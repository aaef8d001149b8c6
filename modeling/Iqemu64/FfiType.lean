import Iqemu64.ByteMemory

/-!
# Type descriptors of the type-encoding library

`FfiType` is the descriptor both convention preparations read. A struct descriptor starts with size
and alignment zero, and `initializeAggregate` fills them in from its elements. `FlatType` lists the
argument types whose descriptors have no nested struct: scalars, pointers and structs of them.
-/

namespace Iqemu64

inductive FfiTypeTag where
  | void | int | float | double | longdouble | uint8 | sint8 | uint16 | sint16 | uint32 | sint32
  | uint64 | sint64 | struct | pointer | complex
  deriving DecidableEq, Repr

inductive FfiType where
  | mk (size alignment : ℕ) (type : FfiTypeTag) (elements : List FfiType)

namespace FfiType

def size : FfiType → ℕ
  | mk s _ _ _ => s

def alignment : FfiType → ℕ
  | mk _ a _ _ => a

def type : FfiType → FfiTypeTag
  | mk _ _ t _ => t

def elements : FfiType → List FfiType
  | mk _ _ _ es => es

end FfiType

/-- `FFI_ALIGN`, which is also `ALIGN2POW`. In the unsigned arithmetic of the source a zero operand becomes all ones, and the
final increment wraps to zero. -/
def ffiAlign (v a : ℕ) : ℕ :=
  if v = 0 ∨ a = 0 then 0 else ((v - 1) ||| (a - 1)) + 1

theorem lor_two_pow_sub_one (n k : ℕ) : n ||| (2 ^ k - 1) = n / 2 ^ k * 2 ^ k + (2 ^ k - 1) := by
  have hlow : n % 2 ^ k ||| (2 ^ k - 1) = 2 ^ k - 1 := by
    apply Nat.eq_of_testBit_eq
    intro i
    by_cases h : i < k <;> simp [h]
  have hdiv : (n ||| (2 ^ k - 1)) / 2 ^ k = n / 2 ^ k := by
    rw [Nat.or_div_two_pow, Nat.div_eq_of_lt (Nat.sub_lt (by positivity) (by norm_num)), Nat.or_zero]
  have hmod : (n ||| (2 ^ k - 1)) % 2 ^ k = 2 ^ k - 1 := by
    rw [Nat.or_mod_two_pow, Nat.mod_eq_of_lt (Nat.sub_lt (by positivity) (by norm_num)), hlow]
  calc n ||| (2 ^ k - 1) = 2 ^ k * ((n ||| (2 ^ k - 1)) / 2 ^ k) + (n ||| (2 ^ k - 1)) % 2 ^ k :=
        (Nat.div_add_mod _ _).symm
    _ = n / 2 ^ k * 2 ^ k + (2 ^ k - 1) := by rw [hdiv, hmod, Nat.mul_comm]

theorem ffiAlign_two_pow (v k : ℕ) : ffiAlign v (2 ^ k) = (v + (2 ^ k - 1)) / 2 ^ k * 2 ^ k := by
  have hp : 0 < 2 ^ k := by positivity
  unfold ffiAlign
  by_cases hv : v = 0
  · subst hv
    rw [if_pos (Or.inl rfl), Nat.zero_add, Nat.div_eq_of_lt (Nat.sub_lt hp (by norm_num)), Nat.zero_mul]
  · rw [if_neg (by omega), lor_two_pow_sub_one, show v + (2 ^ k - 1) = (v - 1) + 2 ^ k by omega,
      Nat.add_div_right _ hp, Nat.succ_mul]
    omega

def IsAlignment (a : ℕ) : Prop := a = 1 ∨ a = 2 ∨ a = 4 ∨ a = 8

theorem ffiAlign_spec {a : ℕ} (v : ℕ) (ha : IsAlignment a) :
    v ≤ ffiAlign v a ∧ ffiAlign v a < v + a ∧ ffiAlign v a % a = 0 := by
  rcases ha with rfl | rfl | rfl | rfl
  · have h := ffiAlign_two_pow v 0
    norm_num at h ⊢
    omega
  · have h := ffiAlign_two_pow v 1
    norm_num at h ⊢
    omega
  · have h := ffiAlign_two_pow v 2
    norm_num at h ⊢
    omega
  · have h := ffiAlign_two_pow v 3
    norm_num at h ⊢
    omega

theorem ffiAlign_eight (v : ℕ) : ffiAlign v 8 = (v + 7) / 8 * 8 := ffiAlign_two_pow v 3

theorem ffiAlign_sixteen (v : ℕ) : ffiAlign v 16 = (v + 15) / 16 * 16 := ffiAlign_two_pow v 4

mutual

def initializeAggregate : FfiType → Option FfiType
  | .mk _ _ type elements =>
    (initializeElements elements 0 0).bind fun (elements, size, alignment) =>
      let size := ffiAlign size alignment
      if size = 0 then none else some (.mk size alignment type elements)

def initializeElements : List FfiType → ℕ → ℕ → Option (List FfiType × ℕ × ℕ)
  | [], size, alignment => some ([], size, alignment)
  | e :: es, size, alignment =>
    (if e.size = 0 then initializeAggregate e else some e).bind fun e =>
      (initializeElements es (ffiAlign size e.alignment + e.size)
        (if alignment > e.alignment then alignment else e.alignment)).map
        fun (es, size, alignment) => (e :: es, size, alignment)

end

def initializeType (ty : FfiType) : Option FfiType :=
  if ty.size = 0 then initializeAggregate ty else some ty

inductive Scalar where
  | uint8 | sint8 | uint16 | sint16 | uint32 | sint32 | uint64 | sint64 | pointer | float | double
  deriving DecidableEq, Repr

namespace Scalar

def size : Scalar → ℕ
  | uint8 | sint8 => 1
  | uint16 | sint16 => 2
  | uint32 | sint32 | float => 4
  | uint64 | sint64 | pointer | double => 8

def tag : Scalar → FfiTypeTag
  | uint8 => .uint8
  | sint8 => .sint8
  | uint16 => .uint16
  | sint16 => .sint16
  | uint32 => .uint32
  | sint32 => .sint32
  | uint64 => .uint64
  | sint64 => .sint64
  | pointer => .pointer
  | float => .float
  | double => .double

def ffi (s : Scalar) : FfiType := .mk s.size s.size s.tag []

theorem size_isAlignment (s : Scalar) : IsAlignment s.size := by
  cases s <;> simp [size, IsAlignment]

theorem size_pos (s : Scalar) : 0 < s.size := by
  cases s <;> decide

end Scalar

inductive FlatType where
  | scalar (s : Scalar)
  | struct (first : Scalar) (rest : List Scalar)
  deriving DecidableEq, Repr

namespace FlatType

def endOffset : List Scalar → ℕ → ℕ
  | [], off => off
  | s :: ss, off => endOffset ss (ffiAlign off s.size + s.size)

def maxAlign : List Scalar → ℕ → ℕ
  | [], a => a
  | s :: ss, a => maxAlign ss (if a > s.size then a else s.size)

def members : FlatType → List Scalar
  | scalar s => [s]
  | struct s ss => s :: ss

def alignment : FlatType → ℕ
  | scalar s => s.size
  | struct s ss => maxAlign (s :: ss) 0

def size : FlatType → ℕ
  | scalar s => s.size
  | struct s ss => ffiAlign (endOffset (s :: ss) 0) (maxAlign (s :: ss) 0)

def ffi : FlatType → FfiType
  | scalar s => s.ffi
  | struct s ss => .mk 0 0 .struct ((s :: ss).map Scalar.ffi)

def desc : FlatType → FfiType
  | scalar s => s.ffi
  | t@(struct s ss) => .mk t.size t.alignment .struct ((s :: ss).map Scalar.ffi)

theorem initializeElements_scalars (ss : List Scalar) (off a : ℕ) :
    initializeElements (ss.map Scalar.ffi) off a =
      some (ss.map Scalar.ffi, endOffset ss off, maxAlign ss a) := by
  induction ss generalizing off a with
  | nil => rfl
  | cons s ss ih =>
    have hs : s.ffi.size ≠ 0 := s.size_pos.ne'
    rw [List.map_cons, initializeElements, if_neg hs]
    change (initializeElements (ss.map Scalar.ffi) _ _).map _ = _
    rw [ih]
    rfl

theorem endOffset_ge (ss : List Scalar) (off : ℕ) : off ≤ endOffset ss off := by
  induction ss generalizing off with
  | nil => exact le_rfl
  | cons s ss ih =>
    have h := (ffiAlign_spec off s.size_isAlignment).1
    have := ih (ffiAlign off s.size + s.size)
    simp only [endOffset]
    omega

theorem maxAlign_isAlignment (ss : List Scalar) (a : ℕ) (ha : IsAlignment a ∨ a = 0)
    (hne : a = 0 → ss ≠ []) : IsAlignment (maxAlign ss a) := by
  induction ss generalizing a with
  | nil =>
    rcases ha with ha | ha
    · exact ha
    · exact absurd rfl (hne ha)
  | cons s ss ih =>
    have hs := s.size_isAlignment
    apply ih
    · left
      split_ifs with h
      · rcases ha with ha | ha
        · exact ha
        · omega
      · exact hs
    · intro h0
      have := s.size_pos
      split_ifs at h0 <;> omega

theorem alignment_isAlignment (t : FlatType) : IsAlignment t.alignment := by
  cases t with
  | scalar s => exact s.size_isAlignment
  | struct s ss => exact maxAlign_isAlignment _ 0 (Or.inr rfl) (fun _ => by simp)

theorem size_pos (t : FlatType) : 0 < t.size := by
  cases t with
  | scalar s => exact s.size_pos
  | struct s ss =>
    have h := ffiAlign_spec (endOffset (s :: ss) 0) (alignment_isAlignment (struct s ss))
    have h0 := endOffset_ge ss (ffiAlign 0 s.size + s.size)
    have hs := s.size_pos
    change _ ≤ endOffset (s :: ss) 0 at h0
    exact Nat.lt_of_lt_of_le (by omega) h.1

theorem initializeType_ffi (t : FlatType) : initializeType t.ffi = some t.desc := by
  cases t with
  | scalar s => exact if_neg s.size_pos.ne'
  | struct s ss =>
    have hpos : (struct s ss).size ≠ 0 := (struct s ss).size_pos.ne'
    change initializeAggregate (.mk 0 0 .struct _) = _
    rw [initializeAggregate, initializeElements_scalars]
    exact if_neg hpos

@[simp] theorem desc_size (t : FlatType) : t.desc.size = t.size := by cases t <;> rfl

@[simp] theorem desc_alignment (t : FlatType) : t.desc.alignment = t.alignment := by cases t <;> rfl

end FlatType

end Iqemu64
