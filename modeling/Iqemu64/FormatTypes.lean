import Iqemu64.FormatString

/-!
# The types of printf arguments

On the format strings that C and POSIX define, one turn of the loop of `parseFmtstr` reads one
conversion and stores its codes. Where positions are written out, the type string is described by its
length and by a function from indices to codes.
-/

namespace Iqemu64
open CString List ConversionSpec FmtState FormatPiece

section Fields
variable {P : Type} {N : Numbering P} {spec : ConversionSpec P} {rest : List Char}

theorem skipSet_append {set w : List Char} (hw : ∀ c ∈ w, c ∈ set) {c : Char} (hc : c ∉ set)
    (rest : List Char) (parsed : Bool) :
    ∃ parsed', skipSet set (w ++ c :: rest) parsed = .ok (parsed', c :: rest) := by
  induction w generalizing parsed with
  | nil => exact ⟨parsed, by rw [nil_append, skipSet, if_neg hc]⟩
  | cons d w ih =>
    rw [cons_append, skipSet, if_pos (hw d mem_cons_self)]
    exact ih (forall_mem_cons.mp hw).2 true

def lengthOnChars : List Char :=
  ['h', 'l', 'q', 'j', 'z', 't', 'L', 'd', 'i', 'u', 'x', 'X', 'o', 'f', 'F', 'e', 'E', 'g', 'G', 'a',
    'A', 's', 'S', 'c', 'C', 'p', 'n', '@']

theorem lengthOn_cons (spec : ConversionSpec P) :
    ∃ c w, spec.lengthOn = c :: w ∧ c ∈ lengthOnChars := by
  unfold lengthOn lengthText
  cases spec.length with
  | none => exact ⟨_, _, rfl, by cases spec.conversion <;> decide⟩
  | some modifier => cases modifier <;> exact ⟨_, _, rfl, by decide⟩

theorem stops_lengthOn {p : Char → Bool} (hp : ∀ c ∈ lengthOnChars, p c = false)
    (spec : ConversionSpec P) (rest : List Char) : Stops p (spec.lengthOn ++ rest) := by
  obtain ⟨c, w, htext, hc⟩ := lengthOn_cons spec
  rw [htext, cons_append]
  exact stops_cons.mpr (hp c hc)

theorem stops_precisionOn {p : Char → Bool} (hp : ∀ c ∈ '.' :: lengthOnChars, p c = false)
    (spec : ConversionSpec P) (rest : List Char) : Stops p (spec.precisionOn N ++ rest) := by
  unfold precisionOn precisionText
  cases spec.precision with
  | none => exact stops_lengthOn (forall_mem_cons.mp hp).2 spec rest
  | some amount => exact stops_cons.mpr (hp '.' mem_cons_self)

theorem parseLengthField_lengthOn (spec : ConversionSpec P) (rest : List Char) :
    ∃ parsed, parseLengthField (spec.lengthOn ++ rest) =
      .ok (parsed, spec.conversion.letter :: rest) := by
  unfold lengthOn
  rw [append_assoc]
  refine skipSet_append (fun c hc => ?_) (by cases spec.conversion <;> decide) rest false
  unfold lengthText at hc
  cases hl : spec.length with
  | none =>
    rw [hl] at hc
    exact absurd hc not_mem_nil
  | some modifier =>
    rw [hl] at hc
    revert c
    cases modifier <;> exact forall_mem_of_all (by decide)

theorem parseTypeField_letter (conv : Conversion) (rest : List Char) :
    parseTypeField false (conv.letter :: rest) = .ok (some (conv.argType, rest)) := by
  cases conv <;> rfl

theorem digits_ne_star {ds w : List Char} (hds : ∀ c ∈ ds, c.isDigit = true) (hw : Stops (· = '*') w)
    (str : List Char) : ds ++ w ≠ '*' :: str := by
  intro heq
  cases ds with
  | cons d ds =>
    obtain ⟨rfl, -⟩ := List.cons.inj heq
    exact absurd (hds '*' mem_cons_self) (by decide)
  | nil =>
    rw [nil_append] at heq
    rw [heq] at hw
    exact absurd (stops_cons.mp hw) (by decide)

def ReadsStar (N : Numbering P) (isNumbered : Bool) (spec : ConversionSpec P) : Prop :=
  ∀ (arg : P) (rest : List Char), spec.width = .star arg ∨ spec.precision = some (.star arg) →
    parseAsterisk isNumbered (N.text arg ++ rest) = { asterisk := true, posEll := N.pos arg, str := rest }

variable {isNumbered : Bool}

theorem parseWidthField_widthOn {spec : ConversionSpec P} (hstar : ReadsStar N isNumbered spec)
    (rest : List Char) : ∃ parsed, parseWidthField isNumbered (spec.widthOn N ++ rest) =
      (parsed, { asterisk := spec.width.isStar, posEll := spec.width.pos N,
                 str := spec.precisionOn N ++ rest }) := by
  have hstop : Stops Char.isDigit (spec.precisionOn N ++ rest) := stops_precisionOn (forall_mem_of_all (by decide)) spec rest
  unfold widthOn
  cases hw : spec.width with
  | star arg =>
    refine ⟨true, ?_⟩
    rw [Amount.text, cons_append, cons_append, append_assoc]
    simp only [parseWidthField]
    rw [hstar arg _ (Or.inl hw)]
    rfl
  | digits ds hds =>
    have hne := digits_ne_star hds (stops_precisionOn (N := N) (forall_mem_of_all (by decide)) spec rest)
    rw [Amount.text, append_assoc]
    refine ⟨_, (parseWidthField.eq_2 _ _ hne).trans (congrArg _ ?_)⟩
    rw [parseDigits, dropWhile_append hds hstop]
    rfl

theorem parsePrecisionField_precisionOn {spec : ConversionSpec P}
    (hstar : ReadsStar N isNumbered spec) (rest : List Char) : ∃ parsed, parsePrecisionField isNumbered (spec.precisionOn N ++ rest) =
      (parsed, { asterisk := spec.precisionStar, posEll := spec.precisionPos N,
                 str := spec.lengthOn ++ rest }) := by
  have hstop : Stops Char.isDigit (spec.lengthOn ++ rest) := stops_lengthOn (forall_mem_of_all (by decide)) spec rest
  unfold precisionOn precisionText precisionStar
    precisionPos
  cases hp : spec.precision with
  | none =>
    have hdot : Stops (· = '.') (spec.lengthOn ++ rest) := stops_lengthOn (forall_mem_of_all (by decide)) spec rest
    refine ⟨false, ?_⟩
    rw [nil_append]
    generalize spec.lengthOn ++ rest = w at hdot
    unfold parsePrecisionField
    split
    · exact absurd (stops_cons.mp hdot) (by decide)
    · exact absurd (stops_cons.mp hdot) (by decide)
    · rfl
  | some amount =>
    refine ⟨true, ?_⟩
    cases amount with
    | star arg =>
      simp only [Amount.text, cons_append, append_assoc, parsePrecisionField]
      rw [hstar arg _ (Or.inr hp)]
      rfl
    | digits ds hds =>
      have hne := digits_ne_star hds (stops_lengthOn (forall_mem_of_all (by decide)) spec rest)
      simp only [Amount.text, cons_append, append_assoc]
      unfold parsePrecisionField
      split
      · rename_i heq
        exact absurd (List.cons.inj heq).2 (hne _)
      · rename_i heq
        obtain rfl := (List.cons.inj heq).2
        rw [parseDigits, dropWhile_append hds hstop]
        rfl
      · rename_i hno
        exact absurd rfl (hno _)

def isFlag (c : Char) : Bool := c ∈ ['-', '+', ' ', '0', '\x27', '#']

theorem stops_widthOn (spec : ConversionSpec P) (rest : List Char) :
    Stops isFlag (spec.widthOn N ++ rest) := by
  have hhead := spec.width_head
  unfold widthOn
  cases hw : spec.width with
  | star arg => exact stops_cons.mpr (by decide)
  | digits ds hds =>
    rw [Amount.text, append_assoc]
    cases ds with
    | nil => exact stops_precisionOn (forall_mem_of_all (by decide)) spec rest
    | cons d ds =>
      have hd := hds d mem_cons_self
      have hzero : d ≠ '0' := fun h => hhead _ hds hw (by rw [h]; rfl)
      refine stops_cons.mpr ?_
      by_contra hflag
      simp only [isFlag, Bool.not_eq_false, decide_eq_true_eq, mem_cons, not_mem_nil,
        or_false] at hflag
      rcases hflag with rfl | rfl | rfl | rfl | rfl | rfl
      all_goals first | exact hzero rfl | exact absurd hd (by decide)

theorem parseFlagsField_flagsOn (spec : ConversionSpec P) (rest : List Char) :
    ∃ parsed, parseFlagsField (spec.flagsOn N ++ rest) = .ok (parsed, spec.widthOn N ++ rest) := by
  have hstop := stops_widthOn (N := N) spec rest
  have hne : spec.widthOn N ++ rest ≠ [] := by
    simp [widthOn, precisionOn, lengthOn]
  obtain ⟨c, w, hw⟩ := exists_cons_of_ne_nil hne
  rw [flagsOn, append_assoc, hw]
  rw [hw] at hstop
  refine skipSet_append (fun c hc => ?_) ?_ w false
  · obtain ⟨flag, -, rfl⟩ := mem_map.mp hc
    cases flag <;> decide
  · simpa [isFlag] using stops_cons.mp hstop

end Fields

section Turn
variable {P : Type} {N : Numbering P} {nfixed : ℕ}

def typeIdx (nfixed pos : ℕ) : ℕ := (nfixed + pos) % 2 ^ 32

structure Scanned (nfixed : ℕ) (N : Numbering P) (spec : ConversionSpec P) (st st₁ : FmtState) :
    Prop where
  types : st₁.types = padTypes (padTypes st.types (typeIdx nfixed (spec.width.pos N)))
    (typeIdx nfixed (spec.precisionPos N))
  pos : st₁.posInEllipsis = st.posInEllipsis
  idx : st₁.idxInTypes = st.idxInTypes
  needWidth : st₁.needWidth = spec.width.isStar
  needPrecision : st₁.needPrecision = spec.precisionStar
  widthIdx : st₁.widthIdxInTypes = typeIdx nfixed (spec.width.pos N)
  precisionIdx : st₁.precisionIdxInTypes = typeIdx nfixed (spec.precisionPos N)

theorem scanFields_spec (nfixed : ℕ) (st : FmtState) {spec : ConversionSpec P}
    (hstar : ReadsStar N (st.posInEllipsis ≠ 0) spec) (rest : List Char) (hstr : st.str = spec.flagsOn N ++ rest)
    (hflags : st.flagsParsed = false) (hwidth : st.widthParsed = false)
    (hprecision : st.precisionParsed = false) (hlength : st.lengthParsed = false) :
    ∃ st₁, Scanned nfixed N spec st st₁ ∧ st.scanFields nfixed =
      (st₁.storeTypes spec.conversion.argType).map fun types =>
        { st₁ with types, str := rest, newRound := true } := by
  obtain ⟨flags, hf⟩ := parseFlagsField_flagsOn (N := N) spec rest
  obtain ⟨width, hw⟩ := parseWidthField_widthOn hstar rest
  obtain ⟨precision, hp⟩ := parsePrecisionField_precisionOn hstar rest
  obtain ⟨length, hl⟩ := parseLengthField_lengthOn spec rest
  refine ⟨{ st with
    types := padTypes (padTypes st.types (typeIdx nfixed (spec.width.pos N)))
      (typeIdx nfixed (spec.precisionPos N))
    str := spec.conversion.letter :: rest
    flagsParsed := flags, widthParsed := width, precisionParsed := precision, lengthParsed := length
    needWidth := spec.width.isStar, needPrecision := spec.precisionStar
    widthIdxInTypes := typeIdx nfixed (spec.width.pos N)
    precisionIdxInTypes := typeIdx nfixed (spec.precisionPos N) }, ⟨rfl, rfl, rfl, rfl, rfl, rfl, rfl⟩, ?_⟩
  simp only [scanFields, flagsField, hflags, Bool.false_eq_true, if_false, hstr, hf,
    ok_map, ok_bind, widthField, hwidth, hw, precisionField, hprecision, hp,
    lengthField, hlength, hl, finishTurn, parseTypeField_letter]
  rfl

theorem moveBehindPercent_append {w : List Char} (hw : '%' ∉ w) (rest : List Char) :
    moveBehindPercent (w ++ '%' :: rest) = rest := by
  unfold moveBehindPercent
  rw [dropWhile_append (fun c hc => ?_) (stops_cons.mpr (by decide))]
  · rfl
  · simp only [decide_eq_true_eq]
    rintro rfl
    exact hw hc

theorem moveBehindPercent_of_not_mem {w : List Char} (hw : '%' ∉ w) : moveBehindPercent w = [] := by
  have hne : ∀ c ∈ w, decide (c ≠ '%') = true := by
    intro c hc
    rw [decide_eq_true_eq]
    rintro rfl
    exact hw hc
  rw [moveBehindPercent, dropWhile_eq_nil_iff.mpr hne]
  rfl

/-- A percent sign that stands for itself changes nothing. -/
theorem fmtLoop_percent (nfixed : ℕ) (st : FmtState) (hnew : st.newRound = true) {w rest : List Char} (hw : '%' ∉ w)
    (hstr : st.str = w ++ '%' :: '%' :: rest)
    (hpad : padTypes st.types (typeIdx nfixed 0) = st.types) (fuel : ℕ) :
    ∃ st', st'.newRound = true ∧ st'.str = rest ∧ st'.types = st.types ∧
      fmtLoop nfixed (fuel + 1) st = fmtLoop nfixed fuel st' := by
  have hpad' : padTypes st.types (nfixed % 2 ^ 32) = st.types := hpad
  have hparam : parseParameterField ('%' :: rest) = (0, '%' :: rest) := rfl
  have hflags : parseFlagsField ('%' :: rest) = .ok (false, '%' :: rest) := rfl
  have hwidth : ∀ b, parseWidthField b ('%' :: rest) =
    (false, { asterisk := false, posEll := 0, str := '%' :: rest }) := fun _ => rfl
  have hprecision : ∀ b, parsePrecisionField b ('%' :: rest) =
    (false, { asterisk := false, posEll := 0, str := '%' :: rest }) := fun _ => rfl
  have hlength : parseLengthField ('%' :: rest) = .ok (false, '%' :: rest) := rfl
  have htype : parseTypeField false ('%' :: rest) = .ok (some (.none, rest)) := rfl
  refine ⟨{ st with
    str := rest, flagsParsed := false, widthParsed := false, precisionParsed := false
    lengthParsed := false, posInEllipsis := 0, idxInTypes := nfixed % 2 ^ 32
    widthIdxInTypes := nfixed % 2 ^ 32, precisionIdxInTypes := nfixed % 2 ^ 32
    needWidth := false, needPrecision := false }, hnew, rfl, rfl, ?_⟩
  rw [fmtLoop, if_pos hnew, hstr, moveBehindPercent_append hw]
  simp only [cons_ne_nil, if_false, startRound, hparam, scanFields,
    flagsField, Bool.false_eq_true, hflags, ok_map, ok_bind, widthField, hwidth,
    precisionField, hprecision, lengthField, hlength, finishTurn, htype,
    Nat.add_zero, hpad', storeTypes, ne_eq, not_true_eq_false, append_nil, hnew]

def effectAll (effect : ConversionSpec P → List Char → List Char) :
    List (FormatPiece P) → List Char → List Char
  | [], types => types
  | .conversion spec :: ps, types => effectAll effect ps (effect spec types)
  | .ordinary _ _ :: ps, types => effectAll effect ps types
  | .percent :: ps, types => effectAll effect ps types

structure ActsAs (nfixed : ℕ) (N : Numbering P) (effect : ConversionSpec P → List Char → List Char)
    (Good : List (FormatPiece P) → List Char → Prop) : Prop where
  parameter : ∀ {spec ps types} (rest : List Char), Good (.conversion spec :: ps) types →
    parseParameterField (spec.text N ++ rest) = (N.pos spec.arg, spec.flagsOn N ++ rest)
  star : ∀ {spec ps types}, Good (.conversion spec :: ps) types →
    ReadsStar N (N.pos spec.arg ≠ 0) spec
  pad : ∀ {ps types}, Good ps types → padTypes types (typeIdx nfixed 0) = types
  ordinary : ∀ {w hw ps types}, Good (.ordinary w hw :: ps) types → Good ps types
  percent : ∀ {ps types}, Good (.percent :: ps) types → Good ps types
  store : ∀ {spec ps types st₀ st₁}, Good (.conversion spec :: ps) types →
    st₀.types = padTypes types (typeIdx nfixed (N.pos spec.arg)) →
    st₀.posInEllipsis = N.pos spec.arg → st₀.idxInTypes = typeIdx nfixed (N.pos spec.arg) →
    Scanned nfixed N spec st₀ st₁ →
    st₁.storeTypes spec.conversion.argType = .ok (effect spec types) ∧ Good ps (effect spec types)

/-- The loop on the text of a format string, behind ordinary text `w`. -/
theorem ActsAs.fmtLoop {effect : ConversionSpec P → List Char → List Char}
    {Good : List (FormatPiece P) → List Char → Prop} (h : ActsAs nfixed N effect Good)
    (ps : List (FormatPiece P)) (w : List Char) (hw : '%' ∉ w) (st : FmtState)
    (hnew : st.newRound = true) (hstr : st.str = w ++ textAll N ps)
    (hgood : Good ps st.types) {fuel : ℕ} (hfuel : ps.length < fuel) :
    fmtLoop nfixed fuel st = .ok (effectAll effect ps st.types) := by
  induction ps generalizing w st fuel with
  | nil =>
    obtain ⟨fuel, rfl⟩ := Nat.exists_eq_add_one.mpr hfuel
    rw [textAll, append_nil] at hstr
    rw [FmtState.fmtLoop, if_pos hnew, hstr, moveBehindPercent_of_not_mem hw]
    rfl
  | cons piece ps ih =>
    have hlen : ps.length + 1 < fuel := hfuel
    obtain ⟨fuel, rfl⟩ := Nat.exists_eq_add_one.mpr (Nat.zero_lt_of_lt hfuel)
    cases piece with
    | ordinary w' hw' =>
      refine ih (w ++ w') (by simp [hw, hw']) st hnew ?_ (h.ordinary hgood) (by omega)
      rw [hstr, append_assoc]
      rfl
    | percent =>
      obtain ⟨st', hnew', hstr', htypes, hloop⟩ := fmtLoop_percent nfixed st hnew hw hstr
        (h.pad hgood) fuel
      rw [hloop, ih [] not_mem_nil st' hnew' hstr' (htypes ▸ h.percent hgood) (by omega), htypes]
      rfl
    | conversion spec =>
      have htext : moveBehindPercent st.str = spec.text N ++ textAll N ps := by
        rw [hstr]
        exact moveBehindPercent_append hw _
      have hne : spec.text N ++ FormatPiece.textAll N ps ≠ [] := by
        simp [ConversionSpec.text, ConversionSpec.flagsOn, ConversionSpec.widthOn,
          precisionOn, lengthOn]
      have hparam := h.parameter (textAll N ps) hgood
      obtain ⟨st₁, hscanned, hscan⟩ := scanFields_spec (N := N) nfixed
        (st.startRound nfixed (spec.text N ++ textAll N ps))
        (by simp only [startRound, hparam]; exact h.star hgood)
        (textAll N ps) (by simp only [startRound, hparam]) rfl rfl rfl rfl
      obtain ⟨hstore, hgood'⟩ := h.store hgood (by simp only [startRound, hparam]; rfl)
        (by simp only [startRound, hparam]) (by simp only [startRound, hparam]; rfl)
        hscanned
      rw [FmtState.fmtLoop, if_pos hnew, htext]
      simp only [hne, if_false]
      rw [hscan, hstore, ok_map, ok_bind]
      exact ih [] not_mem_nil _ rfl rfl hgood' (by omega)

end Turn

end Iqemu64
