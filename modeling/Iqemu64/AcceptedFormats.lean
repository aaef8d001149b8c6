import Iqemu64.TypeCodes

/-!
# What parse_fmtstr makes of an arbitrary string

Whatever string `parseFmtstr` accepts, it hands on codes of the format types. As long as no written-out
position wraps around, the codes of the fixed arguments stay pointers, or become integers where an
asterisk without a number takes the last of them.
-/

namespace Iqemu64
open CString List FmtState Except

theorem strtol_suffix (str : List Char) : (strtol str).2 <:+ str := by
  have hspace : str.dropWhile isSpace <:+ str := dropWhile_suffix _
  have hdigits : (if ((str.dropWhile isSpace).head?.map isSign).getD false then
      (str.dropWhile isSpace).tail else str.dropWhile isSpace) <:+ str := by
    split_ifs
    · exact (tail_suffix _).trans hspace
    · exact hspace
  unfold strtol
  dsimp only
  generalize (if ((str.dropWhile isSpace).head?.map isSign).getD false then
    (str.dropWhile isSpace).tail else str.dropWhile isSpace) = digits at hdigits ⊢
  by_cases hne : digits.takeWhile Char.isDigit = []
  · rw [if_pos hne]
  · rw [if_neg hne]
    exact (dropWhile_suffix _).trans hdigits

section Suffixes
variable {str rest : List Char}

theorem parseParameterField_suffix : (parseParameterField str).2 <:+ str := by
  unfold parseParameterField
  split_ifs
  · exact (tail_suffix _).trans (strtol_suffix str)
  · exact suffix_refl _

theorem skipSet_suffix {set : List Char} {parsed parsed' : Bool}
    (h : skipSet set str parsed = .ok (parsed', rest)) : rest <:+ str := by
  induction str generalizing parsed with
  | nil => exact nomatch h
  | cons c str ih =>
    rw [skipSet] at h
    split_ifs at h
    · exact (ih h).trans (suffix_cons c str)
    · rw [← (Prod.mk.inj (ok.inj h)).2]

theorem parseAsterisk_suffix (numbered : Bool) : (parseAsterisk numbered str).str <:+ str := by
  unfold parseAsterisk
  split_ifs
  · exact (tail_suffix _).trans (strtol_suffix str)
  · exact suffix_refl _
  · exact suffix_refl _

theorem parseDigits_suffix : (parseDigits str).str <:+ str := dropWhile_suffix _

theorem parseWidthField_suffix (numbered : Bool) : (parseWidthField numbered str).2.str <:+ str := by
  unfold parseWidthField
  split
  · exact (parseAsterisk_suffix numbered).trans (suffix_cons _ _)
  · exact parseDigits_suffix

theorem parsePrecisionField_suffix (numbered : Bool) :
    (parsePrecisionField numbered str).2.str <:+ str := by
  unfold parsePrecisionField
  split
  · exact (parseAsterisk_suffix numbered).trans
      ((suffix_cons _ _).trans (suffix_cons _ _))
  · exact parseDigits_suffix.trans (suffix_cons _ _)
  · exact suffix_refl _

theorem parseTypeField_suffix {braces : Bool} {ty : ArgType}
    (h : parseTypeField braces str = .ok (some (ty, rest))) : rest <:+ str := by
  induction str generalizing braces with
  | nil => cases braces <;> simp [parseTypeField] at h
  | cons c str ih =>
    cases braces with
    | true => exact (ih h).trans (suffix_cons c str)
    | false =>
      rw [parseTypeField] at h
      split_ifs at h
      · exact (ih h).trans (suffix_cons c str)
      · obtain ⟨ty', -, heq⟩ := Option.map_eq_some_iff.mp (ok.inj h)
        rw [← (Prod.mk.inj heq).2]
        exact suffix_cons c str

theorem moveBehindPercent_suffix : moveBehindPercent str <:+ str :=
  (tail_suffix _).trans (dropWhile_suffix _)

end Suffixes

def PositionsFit (nfixed : ℕ) (str : List Char) : Prop :=
  ∀ s, s <:+ str → (strtol s).2.head? = some '$' → nfixed + toUnsigned (strtol s).1 < 2 ^ 32

def CodesFixed (nfixed : ℕ) (types : List Char) : Prop :=
  ∃ tys : List ArgType, types = tys.map ArgType.code ∧
    ∀ i ≤ nfixed, tys[i]? = some .pointer ∨ tys[i]? = some .int

namespace CodesFixed
variable {nfixed idx : ℕ} {types types' : List Char}

theorem start (nfixed : ℕ) : CodesFixed nfixed (replicate (nfixed + 1) ArgType.pointer.code) := by
  refine ⟨replicate (nfixed + 1) .pointer, by simp, fun i hi => Or.inl ?_⟩
  rw [getElem?_replicate, if_pos (by omega)]

theorem append (h : CodesFixed nfixed types) (tys' : List ArgType) :
    CodesFixed nfixed (types ++ tys'.map ArgType.code) := by
  obtain ⟨tys, rfl, hfixed⟩ := h
  refine ⟨tys ++ tys', by simp, fun i hi => ?_⟩
  have hlt : i < tys.length := by
    rcases hfixed i hi with h | h <;> exact (List.getElem?_eq_some_iff.mp h).1
  rw [getElem?_append_left hlt]
  exact hfixed i hi

theorem padTypes (h : CodesFixed nfixed types) (idx : ℕ) : CodesFixed nfixed (padTypes types idx) := by
  unfold Iqemu64.padTypes
  split_ifs
  · rw [← map_replicate]
    exact h.append _
  · exact h

/-- A write changes no fixed code to anything but an integer. -/
theorem setType (h : CodesFixed nfixed types) {ty : ArgType} (hidx : nfixed < idx ∨ ty = .int)
    (hset : setType types idx ty = .ok types') : CodesFixed nfixed types' := by
  unfold Iqemu64.setType at hset
  split_ifs at hset with hlt
  obtain rfl := ok.inj hset
  obtain ⟨tys, rfl, hfixed⟩ := h
  refine ⟨tys.set idx ty, by rw [map_set], fun i hi => ?_⟩
  rw [length_map] at hlt
  by_cases heq : idx = i
  · subst heq
    rw [getElem?_set_self hlt]
    exact Or.inr (congrArg some (hidx.resolve_left (by omega)))
  · rw [getElem?_set_ne heq]
    exact hfixed i hi

end CodesFixed

structure FmtState.Sound (nfixed : ℕ) (format : List Char) (st : FmtState) : Prop where
  suffix : st.str <:+ format
  codes : CodesFixed nfixed st.types
  index : st.posInEllipsis ≠ 0 → nfixed < st.idxInTypes

namespace FmtState.Sound
variable {nfixed : ℕ} {format : List Char} {st st' : FmtState}

theorem startRound (h : st.Sound nfixed format) (hfit : PositionsFit nfixed format) {str : List Char}
    (hstr : str <:+ format) : (st.startRound nfixed str).Sound nfixed format := by
  refine ⟨parseParameterField_suffix.trans hstr, h.codes.padTypes _, fun hpos => ?_⟩
  simp only [FmtState.startRound, ne_eq] at hpos ⊢
  unfold parseParameterField at hpos ⊢
  split_ifs at hpos ⊢ with hc
  · have := hfit str hstr hc.2
    simp only at hpos ⊢
    rw [Nat.mod_eq_of_lt this]
    omega
  · exact absurd rfl hpos

theorem flagsField (h : st.Sound nfixed format) (hst : st.flagsField = .ok st') :
    st'.Sound nfixed format := by
  unfold FmtState.flagsField at hst
  split_ifs at hst
  · obtain rfl := ok.inj hst
    exact h
  · cases hf : parseFlagsField st.str with
    | error e => exact nomatch hf ▸ hst
    | ok r =>
      rw [hf] at hst
      obtain rfl := ok.inj hst
      exact ⟨(skipSet_suffix hf).trans h.suffix, h.codes, h.index⟩

theorem lengthField (h : st.Sound nfixed format) (hst : st.lengthField = .ok st') :
    st'.Sound nfixed format := by
  unfold FmtState.lengthField at hst
  split_ifs at hst
  · obtain rfl := ok.inj hst
    exact h
  · cases hf : parseLengthField st.str with
    | error e => exact nomatch hf ▸ hst
    | ok r =>
      rw [hf] at hst
      obtain rfl := ok.inj hst
      exact ⟨(skipSet_suffix hf).trans h.suffix, h.codes, h.index⟩

theorem widthField (h : st.Sound nfixed format) : (st.widthField nfixed).Sound nfixed format := by
  unfold FmtState.widthField
  split_ifs
  · exact h
  · exact ⟨(parseWidthField_suffix _).trans h.suffix, h.codes.padTypes _, h.index⟩

theorem precisionField (h : st.Sound nfixed format) :
    (st.precisionField nfixed).Sound nfixed format := by
  unfold FmtState.precisionField
  split_ifs
  · exact h
  · exact ⟨(parsePrecisionField_suffix _).trans h.suffix, h.codes.padTypes _, h.index⟩

theorem storeTypes (h : st.Sound nfixed format) {ty : ArgType} {types : List Char}
    (hst : st.storeTypes ty = .ok types) : CodesFixed nfixed types := by
  unfold FmtState.storeTypes at hst
  by_cases hpos : st.posInEllipsis ≠ 0
  · rw [if_pos hpos] at hst
    -- the conversion's own code, then those of its width and its precision
    have hint {types types' : List Char} {idx : ℕ} {need : Bool} (hc : CodesFixed nfixed types)
        (hset : (if need then setType types idx .int else .ok types) = .ok types') :
        CodesFixed nfixed types' := by
      cases need with
      | true => exact hc.setType (Or.inr rfl) hset
      | false =>
        obtain rfl := ok.inj hset
        exact hc
    cases h₁ : setType st.types st.idxInTypes ty with
    | error e => exact nomatch h₁ ▸ hst
    | ok types₁ =>
      rw [h₁, ok_bind] at hst
      have hc₁ := h.codes.setType (Or.inl (h.index hpos)) h₁
      cases h₂ : (if st.needWidth then setType types₁ st.widthIdxInTypes .int else .ok types₁) with
      | error e => exact nomatch h₂ ▸ hst
      | ok types₂ =>
        rw [h₂, ok_bind] at hst
        exact hint (hint hc₁ h₂) hst
  · rw [if_neg hpos] at hst
    obtain rfl := ok.inj hst
    have happend {types : List Char} (c : Bool) (ty : ArgType) (hc : CodesFixed nfixed types) :
        CodesFixed nfixed (types ++ if c then [ty.code] else []) := by
      cases c with
      | true => exact hc.append [ty]
      | false => exact hc.append []
    have := happend (decide (ty ≠ .none)) ty
      (happend st.needPrecision .int (happend st.needWidth .int h.codes))
    simpa using this

theorem finishTurn (h : st.Sound nfixed format) (hst : st.finishTurn = .ok st') :
    st'.Sound nfixed format := by
  unfold FmtState.finishTurn at hst
  cases hty : parseTypeField false st.str with
  | error e => exact nomatch hty ▸ hst
  | ok r =>
    rw [hty, ok_bind] at hst
    cases r with
    | none =>
      simp only at hst
      split_ifs at hst
      obtain rfl := ok.inj hst
      exact ⟨h.suffix, h.codes, h.index⟩
    | some r =>
      obtain ⟨ty, str⟩ := r
      simp only at hst
      cases hstore : st.storeTypes ty with
      | error e => exact nomatch hstore ▸ hst
      | ok types =>
        rw [hstore] at hst
        obtain rfl := ok.inj hst
        exact ⟨(parseTypeField_suffix hty).trans h.suffix, h.storeTypes hstore, h.index⟩

theorem scanFields (h : st.Sound nfixed format) (hst : st.scanFields nfixed = .ok st') :
    st'.Sound nfixed format := by
  unfold FmtState.scanFields at hst
  cases h₁ : st.flagsField with
  | error e => exact nomatch h₁ ▸ hst
  | ok st₁ =>
    rw [h₁, ok_bind] at hst
    cases h₂ : ((st₁.widthField nfixed).precisionField nfixed).lengthField with
    | error e => exact nomatch h₂ ▸ hst
    | ok st₂ =>
      rw [h₂, ok_bind] at hst
      exact ((h.flagsField h₁).widthField.precisionField.lengthField h₂).finishTurn hst

theorem fmtLoop (h : st.Sound nfixed format) (hfit : PositionsFit nfixed format) {fuel : ℕ}
    {types : List Char} (hloop : fmtLoop nfixed fuel st = .ok types) :
    CodesFixed nfixed types := by
  induction fuel generalizing st with
  | zero => exact nomatch hloop
  | succ fuel ih =>
    have next {st₁ : FmtState} (h₁ : st₁.Sound nfixed format)
        (hbind : (st₁.scanFields nfixed).bind (fmtLoop nfixed fuel) = .ok types) :
        CodesFixed nfixed types := by
      cases hscan : st₁.scanFields nfixed with
      | error e => exact nomatch hscan ▸ hbind
      | ok st₂ =>
        rw [hscan, ok_bind] at hbind
        exact ih (h₁.scanFields hscan) hbind
    rw [fmtLoop] at hloop
    split_ifs at hloop with hnew
    · simp only at hloop
      split_ifs at hloop
      · obtain rfl := ok.inj hloop
        exact h.codes
      · exact next (h.startRound hfit (moveBehindPercent_suffix.trans h.suffix)) hloop
    · exact next h hloop

end FmtState.Sound

structure FormatCall (nfixed : ℕ) where
  ret : ArgType
  tys : List ArgType
  nfixed_le : nfixed ≤ tys.length
  general : ∀ ty ∈ tys.take nfixed, ty.isGeneral = true

def FormatCall.signature {nfixed : ℕ} (c : FormatCall nfixed) : Signature :=
  codeSignature c.ret c.tys nfixed c.nfixed_le

/-- The type string ends at the first zero, behind the fixed arguments. -/
theorem takeWhile_codes {nfixed : ℕ} {tys : List ArgType}
    (hfixed : ∀ i ≤ nfixed, tys[i]? = some .pointer ∨ tys[i]? = some .int) :
    ∃ ret fixed tail, (tys.map ArgType.code).takeWhile (· ≠ '\x00') =
        (ret :: (fixed ++ tail)).map ArgType.code ∧ fixed.length = nfixed ∧
      (∀ ty ∈ ret :: fixed, ty = .pointer ∨ ty = .int) ∧ ∀ ty ∈ ret :: (fixed ++ tail), ty ≠ .none := by
  have hlen : nfixed + 1 ≤ tys.length := by
    rcases hfixed nfixed le_rfl with h | h <;> exact (List.getElem?_eq_some_iff.mp h).1
  have hfirst : ∀ ty ∈ tys.take (nfixed + 1), ty = .pointer ∨ ty = .int := by
    intro ty hty
    obtain ⟨i, hi⟩ := mem_iff_getElem?.mp hty
    rw [getElem?_take] at hi
    split_ifs at hi with hlt
    rcases hfixed i (by omega) with h | h
    · exact Or.inl (Option.some.inj (hi.symm.trans h))
    · exact Or.inr (Option.some.inj (hi.symm.trans h))
  obtain ⟨ret, fixed, htake⟩ : ∃ ret fixed, tys.take (nfixed + 1) = ret :: fixed := by
    refine exists_cons_of_ne_nil fun hnil => ?_
    have := congrArg length hnil
    rw [length_take, length_nil] at this
    omega
  have hflen := congrArg length htake
  rw [length_take, length_cons] at hflen
  rw [htake] at hfirst
  refine ⟨ret, fixed, (tys.drop (nfixed + 1)).takeWhile fun ty => ty.code ≠ '\x00', ?_, by omega,
    hfirst, fun ty hty => ?_⟩
  · rw [takeWhile_map, ← cons_append, ← htake]
    conv_lhs => rw [← take_append_drop (nfixed + 1) tys]
    rw [takeWhile_append_of_pos]
    · rfl
    · intro ty hty
      rw [htake] at hty
      rcases hfirst ty hty with rfl | rfl <;> rfl
  · rw [← cons_append, mem_append] at hty
    rcases hty with hty | hty
    · rcases hfirst ty hty with rfl | rfl <;> decide
    · rintro rfl
      exact absurd (mem_takeWhile_imp hty) (by decide)

/-- Whatever `parseFmtstr` accepts is described by its codes. -/
theorem parseFmtstr_accepted {fuel nfixed : ℕ} {str : List Char} (hpos : 0 < nfixed)
    (hlt : nfixed < invalidValue) (hfit : PositionsFit nfixed str) {aa : ABIFnInfo AReg}
    {xx : ABIFnInfo XReg} (h : parseFmtstr fuel nfixed str = .ok (some (aa, xx))) :
    ∃ c : FormatCall nfixed, aa = c.signature.aaInfo ∧ xx = c.signature.xxInfo := by
  unfold parseFmtstr fmtstrTypes at h
  cases hloop : fmtLoop nfixed fuel
      { types := replicate (nfixed + 1) ArgType.pointer.code, str } with
  | error e => exact nomatch hloop ▸ h
  | ok types =>
    rw [hloop, ok_map] at h
    have hstart : FmtState.Sound nfixed str
        { types := replicate (nfixed + 1) ArgType.pointer.code, str } :=
      ⟨suffix_refl _, .start nfixed, fun hne => absurd rfl hne⟩
    obtain ⟨tys, rfl, hfixed⟩ := hstart.fmtLoop hfit hloop
    obtain ⟨ret, fixed, tail, htypes, hlen, hfixed, hsome⟩ := takeWhile_codes hfixed
    have hgeneral : ∀ ty ∈ fixed, ty.isGeneral = true := by
      intro ty hty
      rcases hfixed ty (mem_cons_of_mem ret hty) with rfl | rfl <;> rfl
    have hle : nfixed ≤ (fixed ++ tail).length := by simp [hlen]
    refine ⟨⟨ret, fixed ++ tail, hle, by rwa [← hlen, take_left]⟩, ?_⟩
    rw [htypes, ok_bind, getVariFnInfoFromTypes_codes (hsome ret mem_cons_self)
      (forall_mem_cons.mp hsome).2 hpos hle hlt] at h
    obtain ⟨haa, hxx⟩ := Prod.mk.inj (Option.some.inj (ok.inj h))
    exact ⟨haa.symm, hxx.symm⟩

end Iqemu64
