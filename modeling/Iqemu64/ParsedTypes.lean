import Iqemu64.TypesParser
import Iqemu64.TypeTree

/-!
# Descriptors that the type parser builds

Every descriptor of `getType` is a predefined one or a table of such descriptors without a size yet.
Once `initialize_aggregate` has accepted it, its alignment is one, two, four or eight bytes and its
size is not zero. This is all that the argument loops need to know of a type.
-/

namespace Iqemu64
open CString List

/-- Descriptors of the type parser: predefined ones, and tables of elements without a size yet. -/
inductive FfiType.Parsed : FfiType → Prop
  | predefined {size : ℕ} {tag : FfiTypeTag} (hsize : IsAlignment size) : Parsed (.mk size size tag [])
  | table {tag : FfiTypeTag} {es : List FfiType} (hes : ∀ e ∈ es, e.Parsed) : Parsed (.mk 0 0 tag es)

theorem Scalar.parsed (s : Scalar) : s.ffi.Parsed := .predefined s.size_isAlignment

theorem TypeTree.ffi_parsed (t : TypeTree) : t.ffi.Parsed := by
  induction t using TypeTree.induct with
  | scalar s => exact s.parsed
  | aggregate ms ih =>
    refine .table ?_
    induction ms with
    | nil => simp [TypeTree.ffis]
    | cons m ms ihl =>
      intro e he
      rcases mem_cons.mp he with rfl | he
      · exact ih m mem_cons_self
      · exact ihl (fun x hx => ih x (mem_cons_of_mem m hx)) e he

theorem smplFfi_parsed {c : Char} {ty : FfiType} (h : smplFfi c = some ty) : ty.Parsed := by
  unfold smplFfi at h
  split at h <;> simp only [Option.some.injEq, reduceCtorEq] at h <;> subst h <;>
    first | exact Scalar.parsed _ | exact .predefined (Or.inl rfl)

theorem arrayFfi_parsed {n : ℕ} {e ty : FfiType} {str rest : List Char} (he : e.Parsed)
    (h : arrayFfi n e str = .ok (ty, rest)) : ty.Parsed := by
  unfold arrayFfi at h
  split at h
  · split_ifs at h
    obtain ⟨rfl, -⟩ := Prod.mk.inj (Except.ok.inj h)
    refine .table fun x hx => ?_
    rwa [eq_of_mem_replicate hx]
  · cases h

theorem unionFfi_parsed {es : List FfiType} {ty : FfiType} (h : unionFfi es = .ok ty) : ty.Parsed := by
  cases es with
  | nil =>
    obtain rfl := Except.ok.inj h
    refine .table fun x hx => ?_
    rw [mem_singleton.mp hx]
    exact .table (by simp)
  | cons e es => cases h

/-- What the type parser builds, by induction on the recursion depth. -/
theorem getType_parsed (fuel : ℕ) :
    (∀ arrAsAggr str ty b rest, getType fuel arrAsAggr str = .ok (ty, b, rest) → ty.Parsed) ∧
      ∀ close str es rest, getMembers fuel close str = .ok (es, rest) → ∀ e ∈ es, e.Parsed := by
  induction fuel with
  | zero =>
    refine ⟨fun arrAsAggr str ty b rest h => ?_, fun close str es rest h => ?_⟩ <;> cases h
  | succ fuel ih =>
    refine ⟨fun arrAsAggr str ty b rest h => ?_, fun close str es rest h => ?_⟩
    · cases str with
      | nil => cases h
      | cons ch str =>
        unfold getType at h
        split at h
        · obtain ⟨_, -, h⟩ := exists_of_map_ok h
          obtain ⟨rfl, -⟩ := Prod.mk.inj h
          exact Scalar.parsed _
        · obtain ⟨_, -, h⟩ := exists_of_map_ok h
          obtain ⟨rfl, -⟩ := Prod.mk.inj h
          exact Scalar.parsed _
        · split_ifs at h
          · obtain ⟨⟨e, b', rest'⟩, he, h⟩ := exists_of_bind_ok h
            obtain ⟨⟨ty', rest''⟩, hty, h⟩ := exists_of_map_ok h
            obtain ⟨rfl, -⟩ := Prod.mk.inj h
            exact arrayFfi_parsed (ih.1 _ _ _ _ _ he) hty
          · obtain ⟨_, -, h⟩ := exists_of_map_ok h
            obtain ⟨rfl, -⟩ := Prod.mk.inj h
            exact Scalar.parsed _
        · obtain ⟨_, -, h⟩ := exists_of_bind_ok h
          obtain ⟨⟨es, rest'⟩, hes, h⟩ := exists_of_map_ok h
          obtain ⟨rfl, -⟩ := Prod.mk.inj h
          exact .table (ih.2 _ _ _ _ hes)
        · obtain ⟨_, -, h⟩ := exists_of_bind_ok h
          obtain ⟨⟨es, rest'⟩, hes, h⟩ := exists_of_bind_ok h
          obtain ⟨ty', hty, h⟩ := exists_of_map_ok h
          obtain ⟨rfl, -⟩ := Prod.mk.inj h
          exact unionFfi_parsed hty
        all_goals first | exact ih.1 _ _ _ _ _ h | skip
        split at h
        · rename_i hsmpl
          obtain ⟨rfl, -⟩ := Prod.mk.inj (Except.ok.inj h)
          exact smplFfi_parsed hsmpl
        · cases h
    · rw [getMembers] at h
      split_ifs at h
      · obtain ⟨rfl, -⟩ := Prod.mk.inj (Except.ok.inj h)
        simp
      · obtain ⟨⟨ty, b, str'⟩, hty, h⟩ := exists_of_bind_ok h
        obtain ⟨⟨es', rest'⟩, hes, h⟩ := exists_of_map_ok h
        obtain ⟨rfl, -⟩ := Prod.mk.inj h
        exact forall_mem_cons.mpr ⟨ih.1 _ _ _ _ _ hty, ih.2 _ _ _ _ hes⟩

theorem getOffsetType_parsed {fuel : ℕ} {str rest : List Char} {ty : ParsedType}
    (h : getOffsetType fuel str = .ok (ty, rest)) : ty.ffi.Parsed := by
  obtain ⟨⟨ffi, b, rest'⟩, hffi, h⟩ := exists_of_map_ok h
  obtain ⟨rfl, -⟩ := Prod.mk.inj h
  exact (getType_parsed fuel).1 _ _ _ _ _ hffi

theorem getArgTypes_parsed {fuel : ℕ} {str rest : List Char} {tys : List ParsedType}
    (h : getArgTypes fuel str = .ok (tys, rest)) : ∀ ty ∈ tys, ty.ffi.Parsed := by
  induction fuel generalizing str tys rest with
  | zero => cases h
  | succ fuel ih =>
    rw [getArgTypes] at h
    split_ifs at h
    · obtain ⟨rfl, -⟩ := Prod.mk.inj (Except.ok.inj h)
      simp
    · obtain ⟨⟨ty, str'⟩, hty, h⟩ := exists_of_bind_ok h
      obtain ⟨⟨tys', rest'⟩, htys, h⟩ := exists_of_map_ok h
      obtain ⟨rfl, -⟩ := Prod.mk.inj h
      exact forall_mem_cons.mpr ⟨getOffsetType_parsed hty, ih htys⟩

theorem handleTypes_parsed {types : List Char} {p : ParsedTypes} (h : handleTypes types = .ok (some p)) :
    ∀ ty ∈ p.args.map ParsedType.ffi, ty.Parsed := by
  rw [handleTypes] at h
  split_ifs at h
  · cases h
  obtain ⟨⟨ret, str⟩, -, h⟩ := exists_of_bind_ok h
  obtain ⟨⟨args, rest⟩, hargs, h⟩ := exists_of_map_ok h
  cases h
  rw [forall_mem_map]
  exact getArgTypes_parsed hargs

structure FfiType.Sized (d : FfiType) : Prop where
  alignment : IsAlignment d.alignment
  size : 0 < d.size

theorem IsAlignment.pos {a : ℕ} (h : IsAlignment a) : 0 < a := by
  rcases h with rfl | rfl | rfl | rfl <;> decide

theorem initializeElements_alignment {es : List FfiType} {off a : ℕ} {r : List FfiType × ℕ × ℕ}
    (hes : ∀ e ∈ es, ∀ d, SizeT.initializeType e = some d → d.Sized) (ha : IsAlignment a ∨ a = 0)
    (hne : a = 0 → es ≠ []) (h : SizeT.initializeElements es off a = some r) : IsAlignment r.2.2 := by
  induction es generalizing off a r with
  | nil =>
    cases h
    exact ha.resolve_right fun h0 => hne h0 rfl
  | cons e es ih =>
    obtain ⟨d, hd, h⟩ := Option.bind_eq_some_iff.mp h
    obtain ⟨⟨es', size, alignment⟩, hr', rfl⟩ := Option.map_eq_some_iff.mp h
    have hsized := hes e mem_cons_self d hd
    have hmax : IsAlignment (if a > d.alignment then a else d.alignment) := by
      split_ifs with hlt
      · exact ha.resolve_right (by omega)
      · exact hsized.alignment
    have hrest := ih (forall_mem_cons.mp hes).2 (Or.inl hmax)
      (fun h0 => absurd h0 hmax.pos.ne') hr'
    exact hrest

theorem FfiType.Parsed.sized {ty d : FfiType} (hp : ty.Parsed) (h : SizeT.initializeType ty = some d) :
    d.Sized := by
  induction hp generalizing d with
  | predefined hsize =>
    obtain rfl := Option.some.inj ((if_neg hsize.pos.ne').symm.trans h)
    exact ⟨hsize, hsize.pos⟩
  | @table tag es _ ih =>
    obtain ⟨r, hr, h⟩ := Option.bind_eq_some_iff.mp h
    have hne : es ≠ [] := by
      rintro rfl
      cases h
    have hal := initializeElements_alignment (fun e he d => ih e he) (Or.inr rfl) (fun _ => hne) hr
    obtain ⟨hpos, h⟩ := Option.ite_none_left_eq_some.mp h
    cases h
    exact ⟨hal, Nat.pos_of_ne_zero hpos⟩

end Iqemu64
