import Iqemu64.FlatVector

/-!
# Nested argument types

A `TypeTree` is a scalar or an aggregate, which is a struct or, with equal members, an array: the type
parser builds an array as a struct of repeated elements. The descriptor of a tree is laid out member
after member, so each scalar leaf has an absolute offset.

The descriptors store sizes in a `size_t`. `SizeT.initializeType` is the initialisation with that
width, and on trees of less than `2 ^ 64` bytes it gives the layout of the tree.
-/

namespace Iqemu64
open List

inductive TypeTree where
  | scalar (s : Scalar)
  | aggregate (members : List TypeTree)

namespace TypeTree

@[elab_as_elim]
theorem induct {P : TypeTree → Prop} (scalar : ∀ s, P (.scalar s))
    (aggregate : ∀ ms, (∀ m ∈ ms, P m) → P (.aggregate ms)) (t : TypeTree) : P t := by
  refine @TypeTree.rec P (fun ms => ∀ m ∈ ms, P m) scalar aggregate ?_ ?_ t
  · intro m hm
    cases hm
  · intro head tail hhead htail m hm
    rcases mem_cons.mp hm with rfl | hm
    · exact hhead
    · exact htail m hm

def array (n : ℕ) (element : TypeTree) : TypeTree := aggregate (replicate n element)

mutual

def ffi : TypeTree → FfiType
  | scalar s => s.ffi
  | aggregate ms => .mk 0 0 .struct (ffis ms)

def ffis : List TypeTree → List FfiType
  | [] => []
  | t :: ts => t.ffi :: ffis ts

end

mutual

def alignment : TypeTree → ℕ
  | scalar s => s.size
  | aggregate ms => maxAlign ms 0

def maxAlign : List TypeTree → ℕ → ℕ
  | [], a => a
  | t :: ts, a => maxAlign ts (if a > t.alignment then a else t.alignment)

end

mutual

def size : TypeTree → ℕ
  | scalar s => s.size
  | aggregate ms => ffiAlign (endOffset ms 0) (maxAlign ms 0)

def endOffset : List TypeTree → ℕ → ℕ
  | [], off => off
  | t :: ts, off => endOffset ts (ffiAlign off t.alignment + t.size)

end

mutual

def desc : TypeTree → FfiType
  | scalar s => s.ffi
  | aggregate ms => .mk (aggregate ms).size (aggregate ms).alignment .struct (descs ms)

def descs : List TypeTree → List FfiType
  | [] => []
  | t :: ts => t.desc :: descs ts

end

mutual

def leaves : TypeTree → List Scalar
  | scalar s => [s]
  | aggregate ms => leavesOf ms

def leavesOf : List TypeTree → List Scalar
  | [] => []
  | t :: ts => t.leaves ++ leavesOf ts

end

mutual

/-- The leaves with their offsets when the tree starts at `off`. -/
def leavesAt : TypeTree → ℕ → List (ℕ × Scalar)
  | scalar s, off => [(off, s)]
  | aggregate ms, off => leavesFrom ms off

def leavesFrom : List TypeTree → ℕ → List (ℕ × Scalar)
  | [], _ => []
  | t :: ts, off =>
    t.leavesAt (ffiAlign off t.alignment) ++ leavesFrom ts (ffiAlign off t.alignment + t.size)

end

mutual

def Filled : TypeTree → Prop
  | scalar _ => True
  | aggregate ms => ms ≠ [] ∧ AllFilled ms

def AllFilled : List TypeTree → Prop
  | [] => True
  | t :: ts => t.Filled ∧ AllFilled ts

end

variable {ms : List TypeTree}

theorem allFilled_iff : AllFilled ms ↔ ∀ m ∈ ms, m.Filled := by
  induction ms with
  | nil => simp [AllFilled]
  | cons t ts ih => simp [AllFilled, ih]

@[simp] theorem desc_size (t : TypeTree) : t.desc.size = t.size := by cases t <;> rfl

@[simp] theorem desc_alignment (t : TypeTree) : t.desc.alignment = t.alignment := by cases t <;> rfl

theorem maxAlign_isAlignment (ms : List TypeTree) (hms : ∀ m ∈ ms, IsAlignment m.alignment) (a : ℕ)
    (ha : IsAlignment a ∨ a = 0) (hne : a = 0 → ms ≠ []) : IsAlignment (maxAlign ms a) := by
  induction ms generalizing a with
  | nil =>
    rcases ha with ha | ha
    · exact ha
    · exact absurd rfl (hne ha)
  | cons m ms ih =>
    have hm := hms m mem_cons_self
    have hmax : IsAlignment (if a > m.alignment then a else m.alignment) := by
      split_ifs with h
      · exact ha.resolve_right (by omega)
      · exact hm
    refine ih (forall_mem_cons.mp hms).2 _ (Or.inl hmax) fun h0 => ?_
    rcases hmax with h | h | h | h <;> omega

theorem alignment_isAlignment {t : TypeTree} (ht : t.Filled) : IsAlignment t.alignment := by
  induction t using induct with
  | scalar s => exact s.size_isAlignment
  | aggregate ms ih =>
    have hms := allFilled_iff.mp ht.2
    exact maxAlign_isAlignment ms (fun m hm => ih m hm (hms m hm)) 0 (Or.inr rfl) fun _ => ht.1

theorem endOffset_ge (hms : ∀ m ∈ ms, m.Filled) (off : ℕ) :
    off ≤ endOffset ms off := by
  induction ms generalizing off with
  | nil => exact le_rfl
  | cons m ms ih =>
    have h := (ffiAlign_spec off (alignment_isAlignment (hms m mem_cons_self))).1
    have := ih (forall_mem_cons.mp hms).2 (ffiAlign off m.alignment + m.size)
    rw [endOffset]
    omega

theorem endOffset_le_size (h : (aggregate ms).Filled) :
    endOffset ms 0 ≤ (aggregate ms).size :=
  (ffiAlign_spec _ (alignment_isAlignment h)).1

theorem size_pos {t : TypeTree} (ht : t.Filled) : 0 < t.size := by
  induction t using induct with
  | scalar s => exact s.size_pos
  | aggregate ms ih =>
    have hms := allFilled_iff.mp ht.2
    obtain ⟨m, ms, rfl⟩ := exists_cons_of_ne_nil ht.1
    have hm := ih m mem_cons_self (hms m mem_cons_self)
    have hend := endOffset_ge (forall_mem_cons.mp hms).2
      (ffiAlign 0 m.alignment + m.size)
    have hle := endOffset_le_size ht
    rw [endOffset] at hle
    omega

end TypeTree

namespace SizeT

def align (v a : ℕ) : ℕ := ffiAlign v a % 2 ^ 64

mutual

def initializeAggregate : FfiType → Option FfiType
  | .mk _ _ type elements =>
    (initializeElements elements 0 0).bind fun (elements, size, alignment) =>
      let size := align size alignment
      if size = 0 then none else some (.mk size alignment type elements)

def initializeElements : List FfiType → ℕ → ℕ → Option (List FfiType × ℕ × ℕ)
  | [], size, alignment => some ([], size, alignment)
  | e :: es, size, alignment =>
    (if e.size = 0 then initializeAggregate e else some e).bind fun e =>
      (initializeElements es ((align size e.alignment + e.size) % 2 ^ 64)
        (if alignment > e.alignment then alignment else e.alignment)).map
        fun (es, size, alignment) => (e :: es, size, alignment)

end

def initializeType (ty : FfiType) : Option FfiType :=
  if ty.size = 0 then initializeAggregate ty else some ty

end SizeT

namespace TypeTree

open SizeT (align)

theorem initializeType_aggregate (ms : List TypeTree) :
    SizeT.initializeType (aggregate ms).ffi =
      (SizeT.initializeElements (ffis ms) 0 0).bind fun (elements, size, alignment) =>
        if align size alignment = 0 then none
        else some (.mk (align size alignment) alignment .struct elements) := by
  change SizeT.initializeAggregate (.mk 0 0 .struct (ffis ms)) = _
  rw [SizeT.initializeAggregate]

theorem initializeType_scalar (s : Scalar) :
    SizeT.initializeType (scalar s).ffi = some (scalar s).desc :=
  if_neg s.size_pos.ne'

/-- Members are accepted when each one is, whatever the running offset. -/
theorem filled_of_initializeElements {ms : List TypeTree}
    (ih : ∀ m ∈ ms, ∀ d, SizeT.initializeType m.ffi = some d → m.Filled) {off a : ℕ}
    {r : List FfiType × ℕ × ℕ} (h : SizeT.initializeElements (ffis ms) off a = some r) :
    AllFilled ms := by
  induction ms generalizing off a r with
  | nil => trivial
  | cons m ms ihl =>
    obtain ⟨d, hd, h⟩ := Option.bind_eq_some_iff.mp h
    obtain ⟨r', hr', -⟩ := Option.map_eq_some_iff.mp h
    exact ⟨ih m mem_cons_self d hd, ihl (fun x hx => ih x (mem_cons_of_mem m hx)) hr'⟩

variable {t : TypeTree}

/-- An empty aggregate has size zero, which is rejected. -/
theorem filled_of_initializeType {d : FfiType}
    (h : SizeT.initializeType t.ffi = some d) : t.Filled := by
  induction t using induct generalizing d with
  | scalar s => trivial
  | aggregate ms ih =>
    obtain ⟨r, hr, h⟩ := Option.bind_eq_some_iff.mp h
    refine ⟨?_, filled_of_initializeElements (fun m hm d => ih m hm) hr⟩
    rintro rfl
    cases h

theorem initializeElements_eq {ms : List TypeTree} (hms : ∀ m ∈ ms, m.Filled)
    (ih : ∀ m ∈ ms, m.size < 2 ^ 64 → SizeT.initializeType m.ffi = some m.desc) {off : ℕ} (a : ℕ)
    (hend : endOffset ms off < 2 ^ 64) :
    SizeT.initializeElements (ffis ms) off a = some (descs ms, endOffset ms off, maxAlign ms a) := by
  induction ms generalizing off a with
  | nil => rfl
  | cons m ms ihl =>
    have hrest := endOffset_ge (forall_mem_cons.mp hms).2
      (ffiAlign off m.alignment + m.size)
    rw [endOffset] at hend
    have hm : SizeT.initializeType m.ffi = some m.desc := ih m mem_cons_self (by omega)
    have hal : align off m.alignment = ffiAlign off m.alignment := Nat.mod_eq_of_lt (by omega)
    change (SizeT.initializeType m.ffi).bind _ = _
    rw [hm, Option.bind_some]
    simp only [desc_size, desc_alignment, hal]
    rw [Nat.mod_eq_of_lt (by omega), ihl (forall_mem_cons.mp hms).2
      (fun x hx => ih x (mem_cons_of_mem m hx)) _ hend]
    rfl

theorem initializeType_eq (ht : t.Filled) (hsize : t.size < 2 ^ 64) :
    SizeT.initializeType t.ffi = some t.desc := by
  induction t using induct with
  | scalar s => exact initializeType_scalar s
  | aggregate ms ih =>
    have hms := allFilled_iff.mp ht.2
    have hend := (endOffset_le_size ht).trans_lt hsize
    have hpos := (size_pos ht).ne'
    have hal : align (endOffset ms 0) (maxAlign ms 0) = (aggregate ms).size := Nat.mod_eq_of_lt hsize
    rw [initializeType_aggregate,
      initializeElements_eq hms (fun m hm => ih m hm (hms m hm)) 0 hend, Option.bind_some]
    simp only [hal]
    exact if_neg hpos

/-- What initialisation gives on a tree that fits a `size_t`. -/
theorem desc_of_initializeType {d : FfiType}
    (h : SizeT.initializeType t.ffi = some d) (hsize : t.size < 2 ^ 64) : t.Filled ∧ d = t.desc := by
  have ht := filled_of_initializeType h
  rw [initializeType_eq ht hsize] at h
  exact ⟨ht, (Option.some.inj h).symm⟩

end TypeTree

end Iqemu64
