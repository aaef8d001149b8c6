import Iqemu64.BlockMarks

/-!
# Variadic calls described by type codes

`parseTypeCodes` counts the types of a string and fills a signature with one pointer for the result,
each fixed and each variadic argument. It then hands the string itself to `handle`.
-/

namespace Iqemu64
open CString

def numTypes : ℕ → List Char → Scan ℕ
  | 0, _ => .error .unfinished
  | fuel + 1, str =>
    if str = [] then .ok 0
    else (getType fuel false str).bind fun (_, _, rest) => (numTypes fuel rest).map (· + 1)

/-- `getNumTypes`. Every turn reads a character. -/
def getNumTypes (types : List Char) : Scan ℕ := numTypes (types.length + 2) types

/-- `parse_type_codes`. The signature of pointers is built and not used. -/
def parseTypeCodes (types : List Char) (nfixed : ℕ) :
    Scan (Option (ABIFnInfo AReg × ABIFnInfo XReg)) :=
  (getNumTypes types).bind fun nvari =>
    let _finalTypes := List.replicate (1 + nfixed + nvari) '*'
    handle types nfixed

section

variable {fuel n nfixed : ℕ} {str types : List Char} {aa : ABIFnInfo AReg} {xx : ABIFnInfo XReg}

/-- No type starts with a character that `strtol` reads. -/
theorem stops_of_getType {arrAsAggr : Bool} {r : FfiType × Bool × List Char}
    (h : getType fuel arrAsAggr str = .ok r) : Stops isNumeral str := by
  cases fuel with
  | zero => cases h
  | succ fuel =>
    cases str with
    | nil => exact stops_nil _
    | cons c str =>
      rw [stops_cons]
      unfold getType at h
      split at h
      case h_13 =>
        cases hs : smplFfi c with
        | none => rw [hs] at h; cases h
        | some ty =>
          unfold smplFfi at hs
          split at hs <;> first | rfl | cases hs
      all_goals rfl

theorem stops_of_numTypes (h : numTypes fuel str = .ok n) : Stops isNumeral str := by
  cases fuel with
  | zero => cases h
  | succ fuel =>
    rw [numTypes] at h
    split_ifs at h with hstr
    · rw [hstr]
      exact stops_nil _
    · obtain ⟨r, htype, -⟩ := exists_of_bind_ok h
      exact stops_of_getType htype

/-- The loop of `handle` over the arguments reads as many types. -/
theorem getArgTypes_length {args : List ParsedType} {rest : List Char}
    (hn : numTypes fuel str = .ok n) (h : getArgTypes fuel str = .ok (args, rest)) :
    args.length = n := by
  induction fuel generalizing str n args with
  | zero => cases hn
  | succ fuel ih =>
    rw [numTypes] at hn
    rw [getArgTypes] at h
    split_ifs at hn h with hstr
    · obtain ⟨rfl, -⟩ := Prod.mk.inj (Except.ok.inj h)
      exact Except.ok.inj hn
    · obtain ⟨⟨ffi, isBlock, str'⟩, htype, hn⟩ := exists_of_bind_ok hn
      obtain ⟨m, hnum, rfl⟩ := exists_of_map_ok hn
      simp only [getOffsetType, htype, ok_map, strtol_stops (stops_of_numTypes hnum)] at h
      obtain ⟨⟨args', rest'⟩, hargs, h⟩ := exists_of_map_ok h
      cases h
      rw [List.length_cons, ih hnum hargs]

theorem handleTypes_length {p : ParsedTypes} (hn : getNumTypes types = .ok n)
    (h : handleTypes types = .ok (some p)) : p.args.length + 1 = n := by
  rw [getNumTypes, numTypes] at hn
  rw [handleTypes] at h
  split_ifs at hn h with hnil
  · cases h
  · obtain ⟨⟨ffi, isBlock, str⟩, htype, hn⟩ := exists_of_bind_ok hn
    obtain ⟨m, hnum, rfl⟩ := exists_of_map_ok hn
    simp only [getOffsetType, htype, ok_map, strtol_stops (stops_of_numTypes hnum)] at h
    obtain ⟨⟨args, rest⟩, hargs, h⟩ := exists_of_map_ok h
    cases h
    rw [getArgTypes_length hnum hargs]

theorem parseTypeCodes_length (hn : getNumTypes types = .ok n)
    (h : parseTypeCodes types nfixed = .ok (some (aa, xx))) :
    aa.ainfo.length + 1 = n ∧ xx.ainfo.length + 1 = n := by
  rw [parseTypeCodes, hn] at h
  obtain ⟨parsed, hp, h⟩ := exists_of_map_ok h
  obtain ⟨p, rfl, hprep⟩ := Option.bind_eq_some_iff.mp h
  obtain ⟨aa', xx', rfl, rfl, haa, hxx⟩ := prepFnInfos_unmarked hprep
  simpa [ABIFnInfo.markBlocks, haa.length, hxx.length] using handleTypes_length hn hp

/-- The descriptions never have the fixed and the variadic arguments. -/
theorem parseTypeCodes_ne (hfixed : 1 ≤ nfixed) (hn : getNumTypes types = .ok n) :
    ¬ ∃ aa xx, parseTypeCodes types nfixed = .ok (some (aa, xx)) ∧
      (aa.ainfo.length = nfixed + n ∨ xx.ainfo.length = nfixed + n) := by
  rintro ⟨aa, xx, h, hlen⟩
  obtain ⟨haa, hxx⟩ := parseTypeCodes_length hn h
  omega

end

theorem parseTypeCodes_ne_two : ¬ ∃ aa xx, parseTypeCodes ['i', 'i'] 1 = .ok (some (aa, xx)) ∧
    (aa.ainfo.length = 3 ∨ xx.ainfo.length = 3) :=
  parseTypeCodes_ne (show 1 ≤ 1 from le_rfl) (show getNumTypes ['i', 'i'] = .ok 2 from rfl)

/-- Two codes behind one fixed argument: the first one is taken for the result, the second one for
the fixed argument. -/
theorem parseTypeCodes_two :
    getNumTypes ['i', 'i'] = .ok 2 ∧
      (parseTypeCodes ['i', 'i'] 1).toOption.join.map
        (fun infos => (infos.1.ainfo.length, infos.2.ainfo.length)) = some (1, 1) :=
  ⟨rfl, rfl⟩

end Iqemu64
