import Iqemu64.TypeTree

/-!
# Homogeneous floating-point aggregates

`isVfpType` counts the members of an aggregate by its size and compares their types by recursion. On
a tree whose size fits a `size_t` this is the definition by leaves: one to four of them, all of one
floating-point kind. Leaves of one kind leave no padding, so the size counts them.
-/

namespace Iqemu64
open List Scalar SizeT

namespace TypeTree

/-- The leaves are `n` scalars of the floating-point kind `kind`. -/
structure IsHfa (t : TypeTree) (kind : Scalar) (n : ℕ) : Prop where
  floating : kind = .float ∨ kind = .double
  pos : 1 ≤ n
  le : n ≤ 4
  leaves : t.leaves = replicate n kind

variable {ms : List TypeTree}

theorem mem_leavesOf {s : Scalar} :
    s ∈ leavesOf ms ↔ ∃ m ∈ ms, s ∈ m.leaves := by
  induction ms with
  | nil => simp [leavesOf]
  | cons m ms ih => simp [leavesOf, ih]

variable {t : TypeTree}

theorem leaves_ne_nil (ht : t.Filled) : t.leaves ≠ [] := by
  induction t using induct with
  | scalar s => exact cons_ne_nil s []
  | aggregate ms ih =>
    obtain ⟨m, ms, rfl⟩ := exists_cons_of_ne_nil ht.1
    intro h
    exact ih m mem_cons_self ht.2.1 (append_eq_nil_iff.mp h).1

def Packed (kind : Scalar) (t : TypeTree) : Prop :=
  t.alignment = kind.size ∧ t.size = t.leaves.length * kind.size

variable {kind : Scalar}

theorem maxAlign_packed (hms : ∀ m ∈ ms, Packed kind m) :
    maxAlign ms kind.size = kind.size := by
  induction ms with
  | nil => rfl
  | cons m ms ih =>
    rw [maxAlign, (hms m mem_cons_self).1, if_neg (lt_irrefl _)]
    exact ih fun x hx => hms x (mem_cons_of_mem m hx)

theorem endOffset_packed (hms : ∀ m ∈ ms, Packed kind m)
    {off : ℕ} (hoff : off % kind.size = 0) :
    endOffset ms off = off + (leavesOf ms).length * kind.size := by
  induction ms generalizing off with
  | nil => simp [endOffset, leavesOf]
  | cons m ms ih =>
    obtain ⟨halign, hsize⟩ := hms m mem_cons_self
    rw [endOffset, halign, ffiAlign_of_mod_eq_zero kind.size_isAlignment hoff, hsize,
      ih (forall_mem_cons.mp hms).2 (by simpa using hoff), leavesOf,
      length_append, Nat.add_mul]
    omega

theorem packed_of_leaves (ht : t.Filled)
    (hall : ∀ s ∈ t.leaves, s = kind) : Packed kind t := by
  induction t using induct with
  | scalar s =>
    obtain rfl := hall s mem_cons_self
    exact ⟨rfl, (Nat.one_mul _).symm⟩
  | aggregate ms ih =>
    have hfill := allFilled_iff.mp ht.2
    have hms : ∀ m ∈ ms, Packed kind m := fun m hm =>
      ih m hm (hfill m hm) fun s hs => hall s (mem_leavesOf.mpr ⟨m, hm, hs⟩)
    have halign : maxAlign ms 0 = kind.size := by
      obtain ⟨m, ms, rfl⟩ := exists_cons_of_ne_nil ht.1
      rw [maxAlign, if_neg (Nat.not_lt_zero _), (hms m mem_cons_self).1]
      exact maxAlign_packed fun x hx => hms x (mem_cons_of_mem m hx)
    refine ⟨halign, ?_⟩
    rw [size, halign, endOffset_packed hms (Nat.zero_mod _), Nat.zero_add]
    exact ffiAlign_of_mod_eq_zero kind.size_isAlignment (Nat.mul_mod_left _ _)

theorem desc_isAggregate_scalar (s : Scalar) : (scalar s).desc.type.isAggregate = false := by
  cases s <;> rfl

theorem desc_isAggregate_aggregate (ms : List TypeTree) :
    (aggregate ms).desc.type.isAggregate = true := rfl

/-- Whether or not a member is an aggregate, the homogeneity test looks at its leaves. -/
theorem isHfa1Elements_descs (candidate : FfiTypeTag)
    (ih : ∀ m ∈ ms, ∀ es, m = aggregate es →
      isHfa1 candidate m.desc = m.leaves.all fun s => s.tag == candidate) :
    isHfa1Elements candidate (descs ms) = (leavesOf ms).all fun s => s.tag == candidate := by
  induction ms with
  | nil => rfl
  | cons m ms ihl =>
    rw [descs, isHfa1Elements, ihl fun x hx => ih x (mem_cons_of_mem m hx), leavesOf,
      all_append]
    cases m with
    | scalar s =>
      rw [desc_isAggregate_scalar]
      simp only [leaves, all_cons, all_nil, Bool.and_true]
      rfl
    | aggregate es =>
      rw [desc_isAggregate_aggregate, if_pos rfl, ih _ mem_cons_self es rfl]

theorem isHfa1_desc (candidate : FfiTypeTag) (ms : List TypeTree) :
    isHfa1 candidate (aggregate ms).desc =
      (aggregate ms).leaves.all fun s => s.tag == candidate := by
  suffices h : ∀ t : TypeTree, ∀ es, t = aggregate es →
      isHfa1 candidate t.desc = t.leaves.all fun s => s.tag == candidate from h _ ms rfl
  intro t
  induction t using induct with
  | scalar s => rintro es ⟨⟩
  | aggregate ms ih =>
    rintro es -
    rw [desc, isHfa1, isHfa1Elements_descs candidate ih]
    rfl

theorem isHfa1Elements_leaves (kind : Scalar) (ms : List TypeTree) :
    isHfa1Elements kind.tag (descs ms) = decide (∀ x ∈ (aggregate ms).leaves, x = kind) := by
  have h := isHfa1_desc kind.tag ms
  rw [desc, isHfa1] at h
  rw [h, Bool.eq_iff_iff]
  simp [FlatType.tag_beq]

/-- The search for the first scalar stops at the first leaf. -/
theorem isHfa0_desc (h : (aggregate ms).Filled) :
    isHfa0 (aggregate ms).desc = (aggregate ms).leaves.head?.map tag := by
  suffices hall : ∀ t : TypeTree, t.Filled → ∀ es, t = aggregate es →
      isHfa0 t.desc = t.leaves.head?.map tag from hall _ h ms rfl
  intro t
  induction t using induct with
  | scalar s => rintro - es ⟨⟩
  | aggregate ms ih =>
    rintro hms es -
    obtain ⟨m, ms, rfl⟩ := exists_cons_of_ne_nil hms.1
    have hne := leaves_ne_nil hms.2.1
    rw [desc, isHfa0, descs, isHfa0Elements, leaves, leavesOf]
    cases m with
    | scalar s =>
      rw [desc_isAggregate_scalar]
      rfl
    | aggregate es =>
      obtain ⟨s, ss, hs⟩ := exists_cons_of_ne_nil hne
      rw [desc_isAggregate_aggregate, if_pos rfl, ih _ mem_cons_self hms.2.1 es rfl, hs]
      rfl

theorem hfaCandidate_descs (h : (aggregate ms).Filled) {s : Scalar}
    {ss : List Scalar} (hs : (aggregate ms).leaves = s :: ss) :
    hfaCandidate (descs ms) = some s.tag := by
  obtain ⟨m, ms, rfl⟩ := exists_cons_of_ne_nil h.1
  rw [descs, hfaCandidate]
  cases m with
  | scalar x =>
    obtain rfl : x = s := (List.cons.inj hs).1
    rw [desc_isAggregate_scalar]
    rfl
  | aggregate es =>
    obtain ⟨x, xs, hx⟩ := exists_cons_of_ne_nil (leaves_ne_nil h.2.1)
    have hhead : isHfa0 (aggregate es).desc = some s.tag := by
      rw [isHfa0_desc h.2.1, hx]
      rw [leaves, leavesOf, hx] at hs
      rw [(List.cons.inj hs).1]
      rfl
    rw [desc_isAggregate_aggregate, if_pos rfl, findSome?_cons, hhead]

def hfaCode (ss : List Scalar) : ℕ :=
  match ss with
  | [] => 0
  | s :: _ =>
    if (s = .float ∨ s = .double) ∧ (∀ x ∈ ss, x = s) ∧ ss.length ≤ 4 then
      s.tag.code * 4 + (4 - ss.length)
    else 0

theorem isVfpType_aggregate (h : (aggregate ms).Filled) :
    isVfpType (aggregate ms).desc = some (hfaCode (aggregate ms).leaves) := by
  obtain ⟨s, ss, hs⟩ := exists_cons_of_ne_nil (leaves_ne_nil h)
  have hcand := hfaCandidate_descs h hs
  have hel : (aggregate ms).desc.elements = descs ms := rfl
  have htype : (aggregate ms).desc.type = .struct := rfl
  unfold isVfpType
  rw [htype, desc_size, hel, hcand, Option.map_some]
  simp only [isHfa1Elements_leaves]
  by_cases hk : s = .float ∨ s = .double
  · by_cases hall : ∀ x ∈ (aggregate ms).leaves, x = s
    · -- the size is then the number of leaves times the width
      obtain ⟨-, hsize⟩ := packed_of_leaves h hall
      have hpos : 0 < (aggregate ms).leaves.length := by rw [hs]; exact Nat.succ_pos _
      have hcode : hfaCode (aggregate ms).leaves =
          if (aggregate ms).leaves.length ≤ 4 then
            s.tag.code * 4 + (4 - (aggregate ms).leaves.length) else 0 := by
        rw [hs] at hall ⊢
        simp only [hfaCode, hk, true_and, and_iff_right hall]
      rw [hsize, decide_eq_true hall, hcode]
      rcases hk with rfl | rfl
      · simp only [Scalar.tag, Scalar.size, FlatType.vfpEncode_mul _ _ 4 (by norm_num)]
        split_ifs <;> first | rfl | omega
      · simp only [Scalar.tag, Scalar.size, FlatType.vfpEncode_mul _ _ 8 (by norm_num)]
        split_ifs <;> first | rfl | omega
    · have hcode : hfaCode (aggregate ms).leaves = 0 := by
        rw [hs] at hall ⊢
        exact if_neg fun hc => hall hc.2.1
      rw [hcode, decide_eq_false hall]
      rcases hk with rfl | rfl <;> simp [Scalar.tag, FlatType.vfpEncode_false]
  · have hcode : hfaCode (aggregate ms).leaves = 0 := by
      rw [hs]
      exact if_neg fun hc => hk hc.1
    rw [hcode]
    cases s <;> simp_all [Scalar.tag]

theorem isVfpType_desc (ht : t.Filled) :
    isVfpType t.desc = some (hfaCode t.leaves) := by
  cases t with
  | scalar s => cases s <;> rfl
  | aggregate ms => exact isVfpType_aggregate ht

theorem IsHfa.hfaCode_eq {n : ℕ} (h : t.IsHfa kind n) :
    hfaCode t.leaves = kind.tag.code * 4 + (4 - n) := by
  obtain ⟨k, rfl⟩ := Nat.exists_eq_add_of_le' h.pos
  rw [h.leaves, replicate_succ, hfaCode]
  have hlen : (kind :: replicate k kind).length = k + 1 := by simp
  rw [hlen, if_pos]
  refine ⟨h.floating, ?_, h.le⟩
  intro x hx
  rw [← replicate_succ] at hx
  exact eq_of_mem_replicate hx

theorem isHfa_of_hfaCode (h : hfaCode t.leaves ≠ 0) : ∃ kind n, t.IsHfa kind n := by
  cases hs : t.leaves with
  | nil => rw [hs] at h; exact absurd rfl h
  | cons s ss =>
    rw [hs, hfaCode] at h
    obtain ⟨⟨hk, hall, hlen⟩, -⟩ := ite_ne_right_iff.mp h
    rw [← hs] at hall hlen
    refine ⟨s, t.leaves.length, hk, ?_, hlen, eq_replicate_of_mem hall⟩
    rw [hs]
    exact Nat.succ_pos _

theorem leavesOf_replicate (n : ℕ) (t : TypeTree) :
    (leavesOf (replicate n t)).length = n * t.leaves.length := by
  induction n with
  | zero => simp [leavesOf]
  | succ n ih => rw [replicate_succ, leavesOf, length_append, ih, Nat.succ_mul, Nat.add_comm]

structure AllFloat (t : TypeTree) : Prop where
  filled : t.Filled
  leaves : ∀ s ∈ t.leaves, s = .float

theorem AllFloat.array {n : ℕ} (hn : 0 < n) (ht : t.AllFloat) : (array n t).AllFloat where
  filled := by
    refine ⟨?_, allFilled_iff.mpr fun m hm => ?_⟩
    · rw [Ne, replicate_eq_nil_iff]
      omega
    · rw [eq_of_mem_replicate hm]
      exact ht.filled
  leaves := by
    intro s hs
    obtain ⟨m, hm, hs⟩ := mem_leavesOf.mp hs
    rw [eq_of_mem_replicate hm] at hs
    exact ht.leaves s hs

/-- Two trees of `float` that together take `2 ^ 64` bytes leave the running size at zero. -/
theorem isVfpType_wrapped {p q : TypeTree} (hp : p.AllFloat) (hq : q.AllFloat)
    (hsum : p.size + q.size = 2 ^ 64) :
    ∃ d, SizeT.initializeType (aggregate [p, q, scalar .float]).ffi = some d ∧
      isVfpType d = some 11 := by
  have hpacked := packed_of_leaves hp.filled hp.leaves
  have hpacked' := packed_of_leaves hq.filled hq.leaves
  have hpos := size_pos hp.filled
  have hpos' := size_pos hq.filled
  have hfill : (aggregate [p, q, scalar .float]).Filled :=
    ⟨cons_ne_nil _ _, hp.filled, hq.filled, trivial, trivial⟩
  have hstart : SizeT.align 0 p.alignment = 0 := rfl
  have hnext : SizeT.align p.size q.alignment = p.size := by
    have hmod : p.size % 4 = 0 := by rw [hpacked.2]; exact Nat.mul_mod_left _ _
    rw [hpacked'.1, SizeT.align, ffiAlign_of_mod_eq_zero Scalar.float.size_isAlignment hmod]
    exact Nat.mod_eq_of_lt (by omega)
  have hinit : SizeT.initializeElements (ffis [p, q, scalar .float]) 0 0 =
      some (descs [p, q, scalar .float], 4, 4) := by
    simp only [ffis, SizeT.initializeElements]
    change (SizeT.initializeType p.ffi).bind _ = _
    rw [initializeType_eq hp.filled (by omega), Option.bind_some]
    change ((SizeT.initializeType q.ffi).bind _).map _ = _
    rw [initializeType_eq hq.filled (by omega), Option.bind_some]
    simp only [desc_size, desc_alignment, hstart, Nat.zero_add]
    rw [Nat.mod_eq_of_lt (by omega : p.size < 2 ^ 64), hnext, hsum, hpacked.1, hpacked'.1]
    rfl
  refine ⟨.mk 4 4 .struct (descs [p, q, scalar .float]), ?_, ?_⟩
  · rw [initializeType_aggregate, hinit]
    rfl
  · have hall : ∀ s ∈ (aggregate [p, q, scalar .float]).leaves, s = .float := by
      intro s hs
      obtain ⟨m, hm, hmem⟩ := mem_leavesOf.mp hs
      simp only [mem_cons, not_mem_nil, or_false] at hm
      rcases hm with rfl | rfl | rfl
      · exact hp.leaves s hmem
      · exact hq.leaves s hmem
      · exact mem_singleton.mp hmem
    obtain ⟨s, ss, hs⟩ := exists_cons_of_ne_nil (leaves_ne_nil hfill)
    obtain rfl : s = .float := hall s (by rw [hs]; exact mem_cons_self)
    have hcand := hfaCandidate_descs hfill hs
    unfold isVfpType
    simp only [FfiType.type, FfiType.size, FfiType.elements, hcand, Option.map_some,
      isHfa1Elements_leaves, decide_eq_true hall]
    rfl

end TypeTree

end Iqemu64
