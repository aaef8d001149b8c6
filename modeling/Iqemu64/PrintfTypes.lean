import Iqemu64.FormatTypes

/-!
# The type strings of printf calls

Counted arguments append their codes to the type string, and arguments with positions overwrite the
codes at their index. In both cases the string that `parseFmtstr` hands on has the codes that C
assigns to the positions of the variable argument list.
-/

namespace Iqemu64
open CString List Function ConversionSpec ArgType FormatString

theorem code_ne_zero {ty : ArgType} (h : ty ≠ .none) : ty.code ≠ '\x00' := by
  cases ty <;> first | exact absurd rfl h | decide

theorem Conversion.argType_ne_none (conv : Conversion) : conv.argType ≠ .none := by
  cases conv <;> decide

theorem typesSize_eq {types : List Char} (h : ∀ c ∈ types, c ≠ '\x00') (hlt : types.length < 2 ^ 32) :
    typesSize types = types.length := by
  have htake := takeWhile_eq_self_iff.mpr fun c hc => decide_eq_true (h c hc)
  rw [typesSize, htake, Nat.mod_eq_of_lt hlt]

theorem padTypes_of_lt {types : List Char} (h : ∀ c ∈ types, c ≠ '\x00') (hlt : types.length < 2 ^ 32)
    {idx : ℕ} (hidx : idx < types.length) : padTypes types idx = types := by
  rw [padTypes, typesSize_eq h hlt, Nat.mod_eq_of_lt (show idx + 1 < 2 ^ 32 by omega),
    if_neg (by omega)]

theorem typeIdx_eq {nfixed pos : ℕ} (h : nfixed + pos < 2 ^ 32) : typeIdx nfixed pos = nfixed + pos :=
  Nat.mod_eq_of_lt h

section Unnumbered

theorem dollar_not_mem_amount (a : Amount Unit) : '$' ∉ a.text unnumbered := by
  cases a with
  | digits ds hds =>
    intro h
    exact absurd (hds '$' h) (by decide)
  | star arg => simp [Amount.text, unnumbered]

/-- No dollar sign stands in a conversion with counted arguments. -/
theorem dollar_not_mem_flagsOn (spec : ConversionSpec Unit) : '$' ∉ spec.flagsOn unnumbered := by
  have hflags : '$' ∉ spec.flags.map Flag.letter := by
    intro h
    obtain ⟨flag, -, hflag⟩ := mem_map.mp h
    revert hflag
    cases flag <;> decide
  have hprecision : '$' ∉ spec.precisionText unnumbered := by
    unfold precisionText
    cases spec.precision with
    | none => exact not_mem_nil
    | some amount => simp [dollar_not_mem_amount amount]
  have hlength : '$' ∉ spec.lengthOn := by
    unfold lengthOn lengthText
    rw [mem_append, not_or]
    constructor
    · cases spec.length with
      | none => exact not_mem_nil
      | some modifier => cases modifier <;> decide
    · cases spec.conversion <;> decide
  simp [flagsOn, widthOn, precisionOn, hflags, hprecision,
    hlength, dollar_not_mem_amount]

theorem strtol_of_digit {str : List Char} (h : (str.head?.map Char.isDigit).getD false = true) :
    (strtol str).2 = str.dropWhile Char.isDigit := by
  have hsplit := takeWhile_append_dropWhile (p := Char.isDigit) (l := str)
  have hne : str.takeWhile Char.isDigit ≠ [] := by
    cases str with
    | nil => exact absurd h (by simp)
    | cons c str => simp [show c.isDigit = true by simpa using h]
  have hstop : Stops Char.isDigit (str.dropWhile Char.isDigit) := by
    intro c hc
    cases hd : str.dropWhile Char.isDigit with
    | nil =>
      rw [hd] at hc
      exact nomatch hc
    | cons d rest =>
      have := head_dropWhile_not Char.isDigit (l := str) (by rw [hd]; simp)
      rw [hd] at hc
      cases hc
      simpa [hd] using this
  have hdigits : ∀ c ∈ str.takeWhile Char.isDigit, c.isDigit = true := fun c hc =>
    mem_takeWhile_imp hc
  have := strtol_digits hdigits hne hstop
  rw [hsplit] at this
  rw [this]

theorem parseParameterField_unnumbered (spec : ConversionSpec Unit) (rest : List Char) :
    parseParameterField (spec.text unnumbered ++ rest) = (0, spec.flagsOn unnumbered ++ rest) := by
  have hdollar := dollar_not_mem_flagsOn spec
  have hletter : Stops Char.isDigit (spec.conversion.letter :: rest) :=
    stops_cons.mpr (by cases spec.conversion <;> decide)
  -- the letter of the conversion ends every number before it
  obtain ⟨u, hu⟩ : ∃ u, spec.flagsOn unnumbered = u ++ [spec.conversion.letter] :=
    ⟨spec.flags.map Flag.letter ++ (spec.width.text unnumbered ++
      (spec.precisionText unnumbered ++ spec.lengthText)), by
        simp [flagsOn, widthOn, precisionOn,
          lengthOn]⟩
  change parseParameterField (spec.flagsOn unnumbered ++ rest) = _
  rw [parseParameterField, if_neg]
  rintro ⟨hdigit, hhead⟩
  rw [strtol_of_digit hdigit, hu, List.append_assoc, List.singleton_append, List.dropWhile_append,
    hletter.dropWhile] at hhead
  rw [hu] at hdollar
  apply hdollar
  split at hhead
  · rw [List.head?_cons, Option.some.injEq] at hhead
    rw [← hhead]
    simp
  · rename_i hne
    rw [List.isEmpty_iff] at hne
    obtain ⟨c, w, hw⟩ := List.exists_cons_of_ne_nil hne
    rw [hw, List.cons_append, List.head?_cons, Option.some.injEq] at hhead
    have hmem : c ∈ u.dropWhile Char.isDigit := by rw [hw]; exact List.mem_cons_self
    rw [← hhead]
    exact List.mem_append_left _ ((List.dropWhile_sublist _).mem hmem)

def appendCodes (spec : ConversionSpec Unit) (types : List Char) : List Char :=
  types ++ spec.codes.map code

structure Appends (nfixed : ℕ) (ps : List (FormatPiece Unit)) (types : List Char) : Prop where
  nfixed_lt : nfixed < types.length
  ne_zero : ∀ c ∈ types, c ≠ '\x00'
  fits : types.length + (codes ps).length < 2 ^ 32

theorem ConversionSpec.codes_ne_none (spec : ConversionSpec Unit) : ∀ ty ∈ spec.codes, ty ≠ .none := by
  intro ty hty
  simp only [codes, mem_append, mem_singleton] at hty
  rcases hty with (hty | hty) | rfl
  · split_ifs at hty
    · rw [mem_singleton.mp hty]
      decide
    · exact absurd hty not_mem_nil
  · split_ifs at hty
    · rw [mem_singleton.mp hty]
      decide
    · exact absurd hty not_mem_nil
  · exact spec.conversion.argType_ne_none

theorem map_code_ne_zero {tys : List ArgType} (h : ∀ ty ∈ tys, ty ≠ .none) :
    ∀ c ∈ tys.map code, c ≠ '\x00' := by
  intro c hc
  obtain ⟨ty, hty, rfl⟩ := mem_map.mp hc
  exact code_ne_zero (h ty hty)

theorem Appends.pad {nfixed : ℕ} {ps : List (FormatPiece Unit)} {types : List Char}
    (h : Appends nfixed ps types) : padTypes types (typeIdx nfixed 0) = types := by
  have hlt := h.nfixed_lt
  have hfits := h.fits
  rw [typeIdx_eq (by omega)]
  exact padTypes_of_lt h.ne_zero (by omega) hlt

theorem actsAs_unnumbered (nfixed : ℕ) :
    ActsAs nfixed unnumbered appendCodes (Appends nfixed) where
  parameter rest _ := parseParameterField_unnumbered _ rest
  star _ _ _ _ := rfl
  pad h := h.pad
  ordinary h := ⟨h.nfixed_lt, h.ne_zero, h.fits⟩
  percent h := ⟨h.nfixed_lt, h.ne_zero, h.fits⟩
  store := by
    intro spec ps types st₀ st₁ hgood htypes hpos hidx hscanned
    have hwidth : spec.width.pos unnumbered = 0 := by cases spec.width <;> rfl
    have hprecision : spec.precisionPos unnumbered = 0 := by
      unfold ConversionSpec.precisionPos
      rcases spec.precision with - | amount
      · rfl
      · cases amount <;> rfl
    have htypes₁ : st₁.types = types := by
      rw [hscanned.types, htypes, hwidth, hprecision]
      change padTypes (padTypes (padTypes types (typeIdx nfixed 0)) (typeIdx nfixed 0))
        (typeIdx nfixed 0) = types
      rw [hgood.pad, hgood.pad, hgood.pad]
    constructor
    · rw [FmtState.storeTypes, hscanned.pos, hpos, htypes₁, hscanned.needWidth, hscanned.needPrecision]
      simp only [unnumbered, ne_eq, not_true_eq_false, if_false, spec.conversion.argType_ne_none,
        not_false_eq_true, if_true, appendCodes, ConversionSpec.codes, map_append, append_assoc]
      cases spec.width.isStar <;> cases spec.precisionStar <;> rfl
    · have hlt := hgood.nfixed_lt
      have hfits := hgood.fits
      simp only [FormatString.codes, length_append] at hfits
      refine ⟨?_, ?_, ?_⟩
      · simp only [appendCodes, length_append]
        omega
      · intro c hc
        rcases mem_append.mp hc with hc | hc
        · exact hgood.ne_zero c hc
        · exact map_code_ne_zero spec.codes_ne_none c hc
      · simp only [appendCodes, length_append, length_map]
        omega

theorem effectAll_appendCodes (ps : List (FormatPiece Unit)) (types : List Char) :
    effectAll appendCodes ps types = types ++ (codes ps).map code := by
  induction ps generalizing types with
  | nil => simp [effectAll, FormatString.codes]
  | cons piece ps ih =>
    cases piece with
    | ordinary w hw => exact ih types
    | percent => exact ih types
    | conversion spec =>
      rw [effectAll, ih, appendCodes, FormatString.codes, map_append, append_assoc]

end Unnumbered

section Numbered
variable {nfixed : ℕ}

structure Described (types : List Char) (D : ℕ × (ℕ → Char)) : Prop where
  types_eq : types = (range D.1).map D.2
  beyond : ∀ i, D.1 ≤ i → D.2 i = pointer.code
  ne_zero : ∀ i, D.2 i ≠ '\x00'

variable {types : List Char} {D : ℕ × (ℕ → Char)}

theorem Described.congr {D' : ℕ × (ℕ → Char)} (h : Described types D)
    (hlength : D.1 = D'.1) (hcodes : D.2 = D'.2) : Described types D' := by
  rwa [show D' = D from Prod.ext hlength.symm hcodes.symm]

theorem Described.length (h : Described types D) :
    types.length = D.1 := by
  rw [h.types_eq, length_map, length_range]

theorem Described.typesSize (h : Described types D)
    (hlt : D.1 < 2 ^ 32) : typesSize types = D.1 := by
  rw [typesSize_eq _ (by rw [h.length]; exact hlt), h.length]
  intro c hc
  rw [h.types_eq] at hc
  obtain ⟨i, -, rfl⟩ := mem_map.mp hc
  exact h.ne_zero i

theorem Described.pad (h : Described types D)
    (hlt : D.1 < 2 ^ 32) {idx : ℕ} (hidx : idx + 1 < 2 ^ 32) :
    Described (padTypes types idx) (max D.1 (idx + 1), D.2) := by
  rw [padTypes, h.typesSize hlt, Nat.mod_eq_of_lt hidx]
  split_ifs with hcase
  · refine ⟨?_, fun i hi => h.beyond i (le_of_max_le_left hi), h.ne_zero⟩
    have hmax : max D.1 (idx + 1) = D.1 + (idx + 1 - D.1) := by omega
    simp only [hmax]
    rw [range_add, map_append, ← h.types_eq, map_map]
    congr 1
    refine (eq_replicate_iff.mpr ⟨by simp, ?_⟩).symm
    intro c hc
    obtain ⟨i, -, rfl⟩ := mem_map.mp hc
    exact h.beyond _ (Nat.le_add_right _ _)
  · rw [max_eq_left (by omega)]
    exact h

theorem Described.set (h : Described types D) (idx : ℕ)
    (hidx : idx < D.1) {ty : ArgType} (hty : ty ≠ .none) :
    setType types idx ty = .ok (types.set idx ty.code) ∧
      Described (types.set idx ty.code) (D.1, update D.2 idx ty.code) := by
  refine ⟨by rw [setType, if_pos (by rw [h.length]; exact hidx)], ?_, ?_, ?_⟩
  · apply ext_getElem?
    intro i
    rw [getElem?_set, h.length, h.types_eq]
    by_cases hi : idx = i
    · subst hi
      simp [hidx]
    · rcases lt_or_ge i D.1 with hlt | hge
      · simp [hi, hlt, update_of_ne (Ne.symm hi)]
      · simp [hi, hge]
  · intro i hi
    have hne : i ≠ idx := by
      rintro rfl
      exact absurd hidx (Nat.not_lt.mpr hi)
    exact (update_of_ne hne _ _).trans (h.beyond i hi)
  · intro i
    change update D.2 idx ty.code i ≠ _
    rw [update_apply]
    split_ifs
    · exact code_ne_zero hty
    · exact h.ne_zero i

def writeRef (nfixed : ℕ) (D : ℕ × (ℕ → Char)) (r : ℕ × ArgType) : ℕ × (ℕ → Char) :=
  (max D.1 (nfixed + r.1 + 1), update D.2 (nfixed + r.1) r.2.code)

def writeCodes (nfixed : ℕ) (spec : ConversionSpec Position) (types : List Char) : List Char :=
  let types := padTypes (padTypes (padTypes types (nfixed + spec.arg.1))
    (nfixed + spec.width.pos numbered)) (nfixed + spec.precisionPos numbered)
  let types := types.set (nfixed + spec.arg.1) spec.conversion.argType.code
  let types := if spec.width.isStar then
    types.set (nfixed + spec.width.pos numbered) int.code else types
  if spec.precisionStar then
    types.set (nfixed + spec.precisionPos numbered) int.code else types

def RefsFit (nfixed : ℕ) (rs : List (ℕ × ArgType)) : Prop := ∀ r ∈ rs, nfixed + r.1 + 1 < 2 ^ 32

structure Writes (nfixed : ℕ) (ps : List (FormatPiece Position)) (types : List Char) : Prop where
  described : ∃ D, Described types D ∧ nfixed < D.1 ∧ D.1 < 2 ^ 32
  fits : RefsFit nfixed (refs ps)

section Spec
variable {spec : ConversionSpec Position}

theorem widthPos_of_not_star (h : spec.width.isStar = false) : spec.width.pos numbered = 0 := by
  cases hw : spec.width with
  | digits ds hds => rfl
  | star arg =>
    rw [hw] at h
    exact absurd h (by simp [Amount.isStar])

theorem precisionPos_of_not_star (h : spec.precisionStar = false) : spec.precisionPos numbered = 0 := by
  unfold precisionStar at h
  unfold precisionPos
  cases hp : spec.precision with
  | none => rfl
  | some amount =>
    cases amount with
    | digits ds hds => rfl
    | star arg =>
      rw [hp] at h
      exact absurd h (by simp [Amount.isStar])

theorem RefsFit.arg (h : RefsFit nfixed spec.refs) : nfixed + spec.arg.1 + 1 < 2 ^ 32 :=
  h _ mem_cons_self

theorem RefsFit.width (h : RefsFit nfixed spec.refs) : nfixed + spec.width.pos numbered + 1 < 2 ^ 32 := by
  have harg := h.arg
  cases hs : spec.width.isStar with
  | false =>
    rw [widthPos_of_not_star hs]
    omega
  | true =>
    exact h (spec.width.pos numbered, .int)
      (mem_cons_of_mem _ (mem_append_left _ (by simp [hs])))

theorem RefsFit.precision (h : RefsFit nfixed spec.refs) :
    nfixed + spec.precisionPos numbered + 1 < 2 ^ 32 := by
  have harg := h.arg
  cases hs : spec.precisionStar with
  | false =>
    rw [precisionPos_of_not_star hs]
    omega
  | true =>
    exact h (spec.precisionPos numbered, .int)
      (mem_cons_of_mem _ (mem_append_right _ (by simp [hs])))

theorem head_numbered (p : Position) (rest : List Char) :
    ((numbered.text p ++ rest).head?.map Char.isDigit).getD false = true := by
  obtain ⟨d, ds, hd⟩ := exists_cons_of_ne_nil (Nat.toDigits_ne_nil (n := p.1) (b := 10))
  have hmem : d ∈ decimal p.1 := by rw [decimal, hd]; exact mem_cons_self
  have htext : numbered.text p ++ rest = d :: (ds ++ ['$'] ++ rest) := by
    change decimal p.1 ++ ['$'] ++ rest = _
    rw [decimal, hd]
    rfl
  rw [htext]
  exact isDigit_of_mem_decimal hmem

theorem strtol_numbered (p : Position) (rest : List Char) :
    strtol (numbered.text p ++ rest) = (min (2 ^ 63 - 1) (p.1 : ℤ), '$' :: rest) := by
  change strtol (decimal p.1 ++ ['$'] ++ rest) = _
  rw [append_assoc]
  exact strtol_decimal (stops_cons.mpr (by decide))

theorem parseParameterField_numbered (h : RefsFit nfixed spec.refs) (rest : List Char) :
    parseParameterField (spec.text numbered ++ rest) = (spec.arg.1, spec.flagsOn numbered ++ rest) := by
  have hfit := h.arg
  rw [ConversionSpec.text, append_assoc, parseParameterField, strtol_numbered,
    if_pos ⟨head_numbered _ _, rfl⟩, toUnsigned_min (by omega)]
  rfl

theorem parseAsterisk_numbered {p : Position} (h : p.1 < 2 ^ 32) (rest : List Char) :
    parseAsterisk true (numbered.text p ++ rest) = { asterisk := true, posEll := p.1, str := rest } := by
  rw [parseAsterisk, strtol_numbered, if_pos rfl, toUnsigned_min h]
  rfl

theorem readsStar_numbered (h : RefsFit nfixed spec.refs) :
    ReadsStar numbered (numbered.pos spec.arg ≠ 0) spec := by
  have hpos : decide (numbered.pos spec.arg ≠ 0) = true := decide_eq_true spec.arg.2.ne'
  intro arg rest hstar
  rw [hpos]
  refine parseAsterisk_numbered ?_ rest
  rcases hstar with hw | hp
  · have := h.width
    rw [hw] at this
    change nfixed + arg.1 + 1 < 2 ^ 32 at this
    omega
  · have := h.precision
    rw [precisionPos, hp] at this
    change nfixed + arg.1 + 1 < 2 ^ 32 at this
    omega

variable {types : List Char} {D : ℕ × (ℕ → Char)}

/-- A conversion writes its references one after the other. -/
theorem described_writeCodes (hD : Described types D)
    (hlt : D.1 < 2 ^ 32) (hn : nfixed < D.1) (h : RefsFit nfixed spec.refs) :
    Described (writeCodes nfixed spec types) (spec.refs.foldl (writeRef nfixed) D) := by
  have harg := h.arg
  have hwidth := h.width
  have hprecision := h.precision
  have hpad₁ := hD.pad hlt harg
  have hpad₂ := hpad₁.pad (by simp only; omega) hwidth
  have hpad₃ := hpad₂.pad (by simp only; omega) hprecision
  have hset₁ := (hpad₃.set (nfixed + spec.arg.1) (by simp only; omega)
    spec.conversion.argType_ne_none).2
  have hint : int ≠ .none := by decide
  unfold writeCodes
  cases hw : spec.width.isStar with
  | false =>
    have hwpos := widthPos_of_not_star hw
    cases hp : spec.precisionStar with
    | false =>
      have hppos := precisionPos_of_not_star hp
      refine hset₁.congr ?_ ?_
      · simp [ConversionSpec.refs, hw, hp, writeRef, hwpos, hppos, hn]
      · simp [ConversionSpec.refs, hw, hp, writeRef]
    | true =>
      refine (hset₁.set (nfixed + spec.precisionPos numbered) (by simp only; omega) hint).2.congr ?_ ?_
      · simp [ConversionSpec.refs, hw, hp, writeRef, hwpos, hn]
      · simp [ConversionSpec.refs, hw, hp, writeRef]
  | true =>
    have hset₂ := (hset₁.set (nfixed + spec.width.pos numbered) (by simp only; omega) hint).2
    cases hp : spec.precisionStar with
    | false =>
      have hppos := precisionPos_of_not_star hp
      refine hset₂.congr ?_ ?_
      · simp [ConversionSpec.refs, hw, hp, writeRef, hppos, hn]
      · simp [ConversionSpec.refs, hw, hp, writeRef]
    | true =>
      refine (hset₂.set (nfixed + spec.precisionPos numbered) (by simp only; omega) hint).2.congr ?_ ?_
      · simp [ConversionSpec.refs, hw, hp, writeRef]
      · simp [ConversionSpec.refs, hw, hp, writeRef]

/-- After the fields of a conversion there is room for all its codes. -/
theorem described_padded (hD : Described types D)
    (hlt : D.1 < 2 ^ 32) (h : RefsFit nfixed spec.refs) :
    ∃ L, nfixed + spec.arg.1 < L ∧ nfixed + spec.width.pos numbered < L ∧
      nfixed + spec.precisionPos numbered < L ∧
      (padTypes (padTypes (padTypes types (nfixed + spec.arg.1)) (nfixed + spec.width.pos numbered))
        (nfixed + spec.precisionPos numbered)).length = L := by
  have harg := h.arg
  have hwidth := h.width
  have hpad := ((hD.pad hlt harg).pad (by simp only; omega) hwidth).pad (by simp only; omega) h.precision
  exact ⟨_, by simp only; omega, by simp only; omega, by simp only; omega, hpad.length⟩

theorem storeTypes_numbered (hD : Described types D)
    (hlt : D.1 < 2 ^ 32) (h : RefsFit nfixed spec.refs) {st₀ st₁ : FmtState}
    (htypes : st₀.types = padTypes types (typeIdx nfixed spec.arg.1))
    (hpos : st₀.posInEllipsis = spec.arg.1) (hidx : st₀.idxInTypes = typeIdx nfixed spec.arg.1)
    (hscanned : Scanned nfixed numbered spec st₀ st₁) :
    st₁.storeTypes spec.conversion.argType = .ok (writeCodes nfixed spec types) := by
  have harg := h.arg
  have hwidth := h.width
  have hprecision := h.precision
  obtain ⟨L, hL₁, hL₂, hL₃, hlength⟩ := described_padded hD hlt h
  have htypes₁ := hscanned.types
  rw [htypes, typeIdx_eq (by omega), typeIdx_eq (by omega), typeIdx_eq (by omega)] at htypes₁
  have hset : ∀ {ts : List Char} {idx : ℕ} {ty : ArgType}, ts.length = L → idx < L →
      setType ts idx ty = .ok (ts.set idx ty.code) := fun hts hlt => by
    rw [setType, if_pos (by omega)]
  rw [FmtState.storeTypes, if_pos (by rw [hscanned.pos, hpos]; exact spec.arg.2.ne'), htypes₁,
    hscanned.idx, hidx, hscanned.widthIdx, hscanned.precisionIdx, hscanned.needWidth,
    hscanned.needPrecision, typeIdx_eq (by omega), typeIdx_eq (by omega), typeIdx_eq (by omega),
    hset hlength hL₁, ok_bind]
  unfold writeCodes
  cases spec.width.isStar with
  | false =>
    simp only [Bool.false_eq_true, if_false, ok_bind]
    split_ifs
    · exact hset (by rw [length_set, hlength]) hL₃
    · rfl
  | true =>
    simp only [if_true]
    rw [hset (by rw [length_set, hlength]) hL₂, ok_bind]
    split_ifs
    · exact hset (by rw [length_set, length_set, hlength]) hL₃
    · rfl

theorem foldl_writeRef_bounds {rs : List (ℕ × ArgType)} (h : RefsFit nfixed rs)
    (hn : nfixed < D.1) (hlt : D.1 < 2 ^ 32) :
    nfixed < (rs.foldl (writeRef nfixed) D).1 ∧ (rs.foldl (writeRef nfixed) D).1 < 2 ^ 32 := by
  induction rs generalizing D with
  | nil => exact ⟨hn, hlt⟩
  | cons r rs ih =>
    have hr := h r mem_cons_self
    refine ih (forall_mem_cons.mp h).2 ?_ ?_
    · simp only [writeRef]
      omega
    · simp only [writeRef]
      omega

end Spec

variable {rs : List (ℕ × ArgType)}

theorem RefsFit.append {rs' : List (ℕ × ArgType)} (h : RefsFit nfixed (rs ++ rs')) :
    RefsFit nfixed rs ∧ RefsFit nfixed rs' :=
  forall_mem_append.mp h

theorem actsAs_numbered (nfixed : ℕ) :
    ActsAs nfixed numbered (writeCodes nfixed) (Writes nfixed) where
  parameter rest h := parseParameterField_numbered h.fits.append.1 rest
  star h := readsStar_numbered h.fits.append.1
  pad h := by
    obtain ⟨D, hD, hn, hlt⟩ := h.described
    rw [typeIdx_eq (by omega), Nat.add_zero, padTypes, hD.typesSize hlt,
      Nat.mod_eq_of_lt (show nfixed + 1 < 2 ^ 32 by omega), if_neg (by omega)]
  ordinary h := ⟨h.described, h.fits⟩
  percent h := ⟨h.described, h.fits⟩
  store := by
    intro spec ps types st₀ st₁ hgood htypes hpos hidx hscanned
    obtain ⟨D, hD, hn, hlt⟩ := hgood.described
    obtain ⟨hspec, hps⟩ := hgood.fits.append
    exact ⟨storeTypes_numbered hD hlt hspec htypes hpos hidx hscanned,
      ⟨_, described_writeCodes hD hlt hn hspec, foldl_writeRef_bounds hspec hn hlt⟩, hps⟩

theorem described_effectAll (ps : List (FormatPiece Position)) (hD : Described types D) (hn : nfixed < D.1) (hlt : D.1 < 2 ^ 32)
    (h : RefsFit nfixed (refs ps)) : Described (effectAll (writeCodes nfixed) ps types)
      ((refs ps).foldl (writeRef nfixed) D) := by
  induction ps generalizing types D with
  | nil => exact hD
  | cons piece ps ih =>
    cases piece with
    | ordinary w hw => exact ih hD hn hlt h
    | percent => exact ih hD hn hlt h
    | conversion spec =>
      obtain ⟨hspec, hps⟩ := h.append
      obtain ⟨hn', hlt'⟩ := foldl_writeRef_bounds hspec hn hlt
      rw [FormatString.refs, foldl_append]
      exact ih (described_writeCodes hD hlt hn hspec) hn' hlt' hps

theorem foldl_writeRef_length (nfixed : ℕ) (rs : List (ℕ × ArgType)) (D : ℕ × (ℕ → Char)) (a : ℕ)
    (hD : D.1 = nfixed + 1 + a) : (rs.foldl (writeRef nfixed) D).1 =
      nfixed + 1 + max a ((rs.map Prod.fst).foldr max 0) := by
  induction rs generalizing D a with
  | nil => simp [hD]
  | cons r rs ih =>
    rw [foldl_cons, ih _ (max a r.1) (by simp only [writeRef, hD]; omega), map_cons,
      foldr_cons, max_assoc]

theorem foldl_writeRef_other {i : ℕ}
    (h : ∀ r ∈ rs, nfixed + r.1 ≠ i) : (rs.foldl (writeRef nfixed) D).2 i = D.2 i := by
  induction rs generalizing D with
  | nil => rfl
  | cons r rs ih =>
    rw [foldl_cons, ih fun r' hr' => h r' (mem_cons_of_mem r hr')]
    exact update_of_ne (Ne.symm (h r mem_cons_self)) _ _

theorem foldl_writeRef_agree {p : ℕ} {ty : ArgType}
    (h : ∀ ty', (p, ty') ∈ rs → ty' = ty) (hD : (∀ ty', (p, ty') ∉ rs) → D.2 (nfixed + p) = ty.code) :
    (rs.foldl (writeRef nfixed) D).2 (nfixed + p) = ty.code := by
  induction rs generalizing D with
  | nil => exact hD fun _ => not_mem_nil
  | cons r rs ih =>
    refine ih (fun x hx => h x (mem_cons_of_mem _ hx)) fun hno => ?_
    obtain ⟨q, ty'⟩ := r
    by_cases hq : q = p
    · subst hq
      obtain rfl := h ty' mem_cons_self
      exact update_self _ _ _
    · refine (update_of_ne (by omega) _ _).trans (hD fun ty'' hmem => ?_)
      rcases mem_cons.mp hmem with heq | hmem
      · exact hq (congrArg Prod.fst heq).symm
      · exact hno ty'' hmem

end Numbered

namespace FormatString

theorem described_start (nfixed : ℕ) :
    Described (replicate (nfixed + 1) pointer.code)
      (nfixed + 1, fun _ => pointer.code) := by
  have hpointer : pointer.code ≠ '\x00' := by decide
  refine ⟨?_, fun _ _ => rfl, fun _ => hpointer⟩
  rw [map_const', length_range]

theorem takeWhile_ne_zero {types : List Char} (h : ∀ c ∈ types, c ≠ '\x00') :
    types.takeWhile (· ≠ '\x00') = types :=
  takeWhile_eq_self_iff.mpr fun c hc => decide_eq_true (h c hc)

theorem codes_ne_none (ps : List (FormatPiece Unit)) : ∀ ty ∈ codes ps, ty ≠ .none := by
  induction ps with
  | nil => exact forall_mem_nil _
  | cons piece ps ih =>
    cases piece with
    | ordinary w hw => exact ih
    | percent => exact ih
    | conversion spec => exact forall_mem_append.mpr ⟨spec.codes_ne_none, ih⟩

theorem fmtstrTypes_unnumbered (ps : List (FormatPiece Unit)) (nfixed : ℕ)
    (h : 1 + nfixed + (codes ps).length < 2 ^ 32) {fuel : ℕ} (hfuel : ps.length < fuel) :
    fmtstrTypes fuel nfixed (FormatPiece.textAll Iqemu64.unnumbered ps) =
      .ok (replicate (nfixed + 1) pointer.code ++ (codes ps).map code) := by
  have hgood : Appends nfixed ps (replicate (nfixed + 1) pointer.code) := by
    refine ⟨by simp, fun c hc => ?_, by simp; omega⟩
    rw [eq_of_mem_replicate hc]
    decide
  have hloop := (actsAs_unnumbered nfixed).fmtLoop ps [] not_mem_nil
    { types := replicate (nfixed + 1) pointer.code
      str := FormatPiece.textAll Iqemu64.unnumbered ps } rfl rfl hgood hfuel
  rw [fmtstrTypes, hloop, ok_map, effectAll_appendCodes, takeWhile_ne_zero]
  intro c hc
  rcases mem_append.mp hc with hc | hc
  · exact hgood.ne_zero c hc
  · exact map_code_ne_zero (codes_ne_none ps) c hc

theorem le_foldr_max {ns : List ℕ} {n : ℕ} (h : n ∈ ns) : n ≤ ns.foldr max 0 := by
  induction ns with
  | nil => exact absurd h not_mem_nil
  | cons m ns ih =>
    rw [foldr_cons]
    rcases mem_cons.mp h with rfl | h
    · exact le_max_left _ _
    · exact (ih h).trans (le_max_right _ _)

theorem fmtstrTypes_numbered (ps : List (FormatPiece Position)) (nfixed : ℕ)
    (h : 1 + nfixed + (numbered ps).arity < 2 ^ 32) :
    ∃ types, (∀ fuel > ps.length,
        fmtstrTypes fuel nfixed (FormatPiece.textAll Iqemu64.numbered ps) = .ok types) ∧
      Described types ((refs ps).foldl (writeRef nfixed) (nfixed + 1, fun _ => pointer.code)) := by
  have hfits : RefsFit nfixed (refs ps) := by
    intro r hr
    have hle : r.1 ≤ (numbered ps).arity := le_foldr_max (mem_map_of_mem hr)
    omega
  have hstart := described_start nfixed
  have hgood : Writes nfixed ps (replicate (nfixed + 1) pointer.code) :=
    ⟨⟨_, hstart, Nat.lt_succ_self nfixed, by simp only; omega⟩, hfits⟩
  have hD := described_effectAll ps hstart (Nat.lt_succ_self nfixed) (by simp only; omega) hfits
  refine ⟨_, fun fuel hfuel => ?_, hD⟩
  have hloop := (actsAs_numbered nfixed).fmtLoop ps [] not_mem_nil
    { types := replicate (nfixed + 1) pointer.code
      str := FormatPiece.textAll Iqemu64.numbered ps } rfl rfl hgood hfuel
  rw [fmtstrTypes, hloop, ok_map, takeWhile_ne_zero]
  intro c hc
  rw [hD.types_eq] at hc
  obtain ⟨i, -, rfl⟩ := mem_map.mp hc
  exact hD.ne_zero i

theorem handsTypes_unnumbered (ps : List (FormatPiece Unit)) (nfixed : ℕ) :
    (unnumbered ps).HandsTypes nfixed
      (replicate (nfixed + 1) pointer.code ++ (codes ps).map code) := by
  refine ⟨?_, ?_, ?_⟩
  · simp [arity]
    omega
  · intro i hi
    rw [getElem?_append_left (by simp; omega)]
    simp [Nat.lt_succ_of_le hi]
  · rintro p ty ⟨hp, hcode⟩
    rw [getElem?_append_right (by simp; omega)]
    simp [show nfixed + p - (nfixed + 1) = p - 1 by omega, hcode]

theorem handsTypes_numbered {ps : List (FormatPiece Position)} {nfixed : ℕ} {types : List Char}
    (hD : Described types
      ((refs ps).foldl (writeRef nfixed) (nfixed + 1, fun _ => pointer.code)))
    (hpos : ∀ r ∈ refs ps, 0 < r.1) : (numbered ps).HandsTypes nfixed types := by
  have hlength := foldl_writeRef_length nfixed (refs ps)
    (nfixed + 1, fun _ => pointer.code) 0 rfl
  rw [Nat.zero_max] at hlength
  have hget : ∀ {i c}, i < nfixed + 1 + (numbered ps).arity →
      ((refs ps).foldl (writeRef nfixed) (nfixed + 1, fun _ => pointer.code)).2 i = c →
      types[i]? = some c := by
    intro i c hi hc
    rw [hD.types_eq, getElem?_map, getElem?_range (by rw [hlength]; exact hi)]
    exact congrArg some hc
  refine ⟨?_, ?_, ?_⟩
  · rw [hD.length, hlength]
    simp only [arity]
    omega
  · intro i hi
    refine hget (by omega) (foldl_writeRef_other fun r hr => ?_)
    have := hpos r hr
    omega
  · rintro p ty ⟨hp, hle, hagree, hnone⟩
    refine hget ?_ (foldl_writeRef_agree hagree fun hno => ?_)
    · simp only [arity]
      omega
    · rw [hnone hno]

theorem Amount.pos_of_star {a : Amount Position} (h : a.isStar = true) : 0 < a.pos Iqemu64.numbered := by
  cases a with
  | digits ds hds => exact absurd h (by simp [Amount.isStar])
  | star arg => exact arg.2

theorem spec_refs_pos (spec : ConversionSpec Position) : ∀ r ∈ spec.refs, 0 < r.1 := by
  refine forall_mem_cons.mpr ⟨spec.arg.2, forall_mem_append.mpr ⟨?_, ?_⟩⟩
  · split_ifs with hs
    · exact forall_mem_singleton.mpr (Amount.pos_of_star hs)
    · exact forall_mem_nil _
  · split_ifs with hs
    · refine forall_mem_singleton.mpr ?_
      unfold precisionStar at hs
      unfold precisionPos
      cases hp : spec.precision with
      | none =>
        rw [hp] at hs
        exact absurd hs (by simp)
      | some amount =>
        rw [hp] at hs
        exact Amount.pos_of_star hs
    · exact forall_mem_nil _

theorem refs_pos (ps : List (FormatPiece Position)) : ∀ r ∈ refs ps, 0 < r.1 := by
  induction ps with
  | nil => exact forall_mem_nil _
  | cons piece ps ih =>
    cases piece with
    | ordinary w hw => exact ih
    | percent => exact ih
    | conversion spec => exact forall_mem_append.mpr ⟨spec_refs_pos spec, ih⟩

/-- The parser ends and hands on the codes of the arguments that C assigns to the positions, where
their number fits an unsigned int. -/
theorem fmtstrTypes_handsTypes (fmt : FormatString) (nfixed : ℕ)
    (h : 1 + nfixed + fmt.arity < 2 ^ 32) :
    ∃ fuel types, (∀ more > fuel, fmtstrTypes more nfixed fmt.text = .ok types ∧
        parseFmtstr more nfixed fmt.text = getVariFnInfoFromTypes types nfixed) ∧
      fmt.HandsTypes nfixed types := by
  have hparse : ∀ {fuel types}, fmtstrTypes fuel nfixed fmt.text = .ok types →
      parseFmtstr fuel nfixed fmt.text = getVariFnInfoFromTypes types nfixed := by
    intro fuel types htypes
    rw [parseFmtstr, htypes, ok_bind]
  cases fmt with
  | unnumbered ps =>
    refine ⟨ps.length, _, fun more hmore => ?_, handsTypes_unnumbered ps nfixed⟩
    have htypes := fmtstrTypes_unnumbered ps nfixed h hmore
    exact ⟨htypes, hparse htypes⟩
  | numbered ps =>
    obtain ⟨types, htypes, hD⟩ := fmtstrTypes_numbered ps nfixed h
    exact ⟨ps.length, types, fun more hmore => ⟨htypes more hmore, hparse (htypes more hmore)⟩,
      handsTypes_numbered hD (refs_pos ps)⟩

def plainSpec {P : Type} (arg : P) (conversion : Conversion) : ConversionSpec P where
  arg := arg
  flags := []
  width := .digits [] (forall_mem_nil _)
  precision := none
  length := none
  conversion := conversion
  width_head := by
    rintro ds hds h
    obtain rfl : [] = ds := Amount.digits.inj h
    simp

theorem fmtstrTypes_handsTypes_swapped :
    ∃ fuel types, (∀ more > fuel, fmtstrTypes more 1 (numbered
        [.conversion (plainSpec ⟨2, by decide⟩ .f), .conversion (plainSpec ⟨1, by decide⟩ .s)]).text =
          .ok types ∧ parseFmtstr more 1 (numbered
        [.conversion (plainSpec ⟨2, by decide⟩ .f), .conversion (plainSpec ⟨1, by decide⟩ .s)]).text =
          getVariFnInfoFromTypes types 1) ∧ (numbered
        [.conversion (plainSpec ⟨2, by decide⟩ .f),
          .conversion (plainSpec ⟨1, by decide⟩ .s)]).HandsTypes 1 types :=
  fmtstrTypes_handsTypes _ 1 (by decide)

/-- A position is cut to an unsigned int, and zero stands for counted arguments. -/
theorem fmtstrTypes_handsTypes_wrapped : ¬ ∃ fuel types,
    fmtstrTypes fuel 1 (numbered [.conversion (plainSpec ⟨2 ^ 32, by decide⟩ .d)]).text = .ok types ∧
      (numbered [.conversion (plainSpec ⟨2 ^ 32, by decide⟩ .d)]).HandsTypes 1 types := by
  rintro ⟨fuel, types, htypes, hlength, -⟩
  obtain rfl | rfl | ⟨fuel, rfl⟩ : fuel = 0 ∨ fuel = 1 ∨ ∃ n, fuel = n + 2 := by
    rcases fuel with - | - | n
    · exact Or.inl rfl
    · exact Or.inr (Or.inl rfl)
    · exact Or.inr (Or.inr ⟨n, rfl⟩)
  · exact nomatch htypes
  · exact nomatch htypes
  · have hval : fmtstrTypes (fuel + 2) 1
        (numbered [.conversion (plainSpec ⟨2 ^ 32, by decide⟩ .d)]).text = .ok ['*', '*', 'i'] := rfl
    rw [hval] at htypes
    rw [← Except.ok.inj htypes] at hlength
    exact absurd hlength (by decide)

end FormatString

end Iqemu64
