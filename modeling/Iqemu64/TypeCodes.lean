import Iqemu64.DyDelivery
import Iqemu64.FmtstrParser

/-!
# Calls that a format string describes

The codes of a format string are types of one character. `codeSignature` is the call that a string of
such codes describes, and `getVariFnInfoFromTypes` prepares both conventions for it.
-/

namespace Iqemu64
open ByteMemory CString List BitVec ArgType

namespace ArgType

def scalar : ArgType → Scalar
  | int => .sint32
  | uint => .uint32
  | double => .double
  | pointer | none => .pointer
  | char => .sint8

abbrev flat (ty : ArgType) : FlatType := .scalar ty.scalar

def isGeneral (ty : ArgType) : Bool := ty ≠ .double

end ArgType

theorem strtol_codes (tys : List ArgType) :
    strtol (tys.map code) = (0, tys.map code) := by
  apply strtol_stops
  cases tys with
  | nil => exact stops_nil _
  | cons ty tys =>
    rw [map_cons, stops_cons]
    cases ty <;> decide

theorem getOffsetType_code {ty : ArgType} (h : ty ≠ .none) (tys : List ArgType) (fuel : ℕ) :
    getOffsetType (fuel + 1) ((ty :: tys).map code) =
      .ok (⟨ty.flat.ffi, false⟩, tys.map code) := by
  have htype : getType (fuel + 1) false ((ty :: tys).map code) =
      .ok (ty.flat.ffi, false, tys.map code) := by
    cases ty <;> first | exact absurd rfl h | rfl
  rw [getOffsetType, htype, ok_map]
  simp only [strtol_codes]

variable {tys : List ArgType}

theorem getArgTypes_codes (h : ∀ ty ∈ tys, ty ≠ .none) {fuel : ℕ}
    (hfuel : tys.length + 1 < fuel) : getArgTypes fuel (tys.map code) =
      .ok (tys.map fun ty => ⟨ty.flat.ffi, false⟩, []) := by
  induction tys generalizing fuel with
  | nil =>
    obtain ⟨fuel, rfl⟩ := Nat.exists_eq_succ_of_ne_zero (show fuel ≠ 0 by omega)
    rfl
  | cons ty tys ih =>
    rw [length_cons] at hfuel
    obtain ⟨fuel, rfl⟩ := Nat.exists_eq_add_of_le' (show 2 ≤ fuel by omega)
    rw [getArgTypes, getOffsetType_code (h ty mem_cons_self), ok_bind]
    simp only
    rw [ih (forall_mem_cons.mp h).2 (by omega)]
    rfl

variable {ret : ArgType}

theorem handleTypes_codes (hret : ret ≠ .none)
    (h : ∀ ty ∈ tys, ty ≠ .none) : handleTypes ((ret :: tys).map code) =
      .ok (some ⟨⟨ret.flat.ffi, false⟩, tys.map fun ty => ⟨ty.flat.ffi, false⟩, []⟩) := by
  have hlen : ((ret :: tys).map code).length = tys.length + 1 := by simp
  rw [handleTypes, getOffsetType_code hret, ok_bind]
  simp only
  rw [getArgTypes_codes h (by omega)]
  rfl

variable {k : ℕ}

theorem getLsbD_one_shiftLeft (hk : k < 64) (i : ℕ) :
    (BitVec.ofNat 64 (1 <<< i)).getLsbD k = (i == k) := by
  rw [getLsbD_ofNat, Nat.one_shiftLeft, Nat.testBit_two_pow, Bool.eq_iff_iff]
  simp [hk]

theorem getLsbD_foldl_blocks (l : List (ParsedType × ℕ)) (mask : BitVec 64) (hk : k < 64) :
    (l.foldl (fun mask (ty, i) => if ty.isBlock then mask ||| (1 <<< (i % 64)) else mask)
        mask).getLsbD k =
      (mask.getLsbD k || l.any fun q => q.1.isBlock && q.2 % 64 == k) := by
  induction l generalizing mask with
  | nil => simp
  | cons q l ih =>
    obtain ⟨ty, i⟩ := q
    rw [foldl_cons, ih]
    cases hty : ty.isBlock <;> simp [hty, getLsbD_one_shiftLeft hk, Bool.or_assoc]

theorem getLsbD_blkMask (p : ParsedTypes) (hk : k < 64) :
    (blkMask p).getLsbD k = true ↔ (k = 63 ∧ p.ret.isBlock = true) ∨
      ∃ i ty, p.args[i]? = some ty ∧ ty.isBlock = true ∧ i % 64 = k := by
  have hret : (if p.ret.isBlock then BitVec.ofNat 64 (1 <<< 63) else 0).getLsbD k = true ↔
      k = 63 ∧ p.ret.isBlock = true := by
    cases p.ret.isBlock with
    | false => simp
    | true => rw [if_pos rfl, getLsbD_one_shiftLeft hk, beq_iff_eq, eq_comm, and_iff_left rfl]
  rw [blkMask, getLsbD_foldl_blocks _ _ hk, Bool.or_eq_true, any_eq_true]
  simp only [Bool.and_eq_true, beq_iff_eq, Prod.exists, mem_zipIdx_iff_getElem?]
  exact or_congr hret ⟨fun ⟨ty, i, h⟩ => ⟨i, ty, h⟩, fun ⟨i, ty, h⟩ => ⟨ty, i, h⟩⟩

theorem blkMask_eq_zero {p : ParsedTypes} (hret : p.ret.isBlock = false)
    (h : ∀ ty ∈ p.args, ty.isBlock = false) : blkMask p = 0 := by
  refine eq_of_getLsbD_eq fun k hk => ?_
  rw [ofNat_eq_ofNat, getLsbD_zero, Bool.eq_false_iff, ne_eq, getLsbD_blkMask p hk]
  rintro (⟨-, hblk⟩ | ⟨i, ty, hi, hblk, -⟩)
  · exact absurd hblk (by rw [hret]; decide)
  · exact absurd hblk (by rw [h ty (mem_of_getElem? hi)]; decide)

theorem markBlocks_zero {R : Type} (info : ABIFnInfo R) : info.markBlocks 0 = info := by
  unfold ABIFnInfo.markBlocks
  simp

def codeSignature (ret : ArgType) (tys : List ArgType) (nfixed : ℕ) (h : nfixed ≤ tys.length) :
    Signature where
  ret := ret.flat.result
  args := tys.map flat
  nfixed := nfixed
  nfixed_le := by simpa using h

theorem codeSignature_floatFree {nfixed : ℕ}
    (h : nfixed ≤ tys.length) : ∀ t ∈ (codeSignature ret tys nfixed h).args, t.FloatFree := by
  intro t ht
  obtain ⟨ty, -, rfl⟩ := mem_map.mp ht
  trivial

theorem getVariFnInfoFromTypes_codes {nfixed : ℕ}
    (hret : ret ≠ .none) (h : ∀ ty ∈ tys, ty ≠ .none) (hpos : 0 < nfixed) (hle : nfixed ≤ tys.length)
    (hlt : nfixed < invalidValue) :
    getVariFnInfoFromTypes ((ret :: tys).map code) nfixed =
      .ok (some ((codeSignature ret tys nfixed hle).aaInfo, (codeSignature ret tys nfixed hle).xxInfo)) := by
  have hmask : blkMask ⟨⟨ret.flat.ffi, false⟩, tys.map fun ty => ⟨ty.flat.ffi, false⟩, []⟩ = 0 := by
    refine blkMask_eq_zero rfl fun p hp => ?_
    obtain ⟨ty, -, rfl⟩ := mem_map.mp hp
    rfl
  have hxx := (codeSignature ret tys nfixed hle).myXxFiPrepCif_eq
  have haa : myAaFiPrepCifVar nfixed (codeSignature ret tys nfixed hle).ret.ffi
      (codeSignature ret tys nfixed hle).atypes = some (codeSignature ret tys nfixed hle).aaInfo := by
    have hlen : (codeSignature ret tys nfixed hle).atypes.length = tys.length := by
      simp [Signature.atypes, codeSignature]
    rw [myAaFiPrepCifVar, if_pos (by omega)]
    exact (codeSignature ret tys nfixed hle).myAaFiPrepCifCore_eq
  have hatypes : (tys.map fun ty => (⟨ty.flat.ffi, false⟩ : ParsedType)).map ParsedType.ffi =
      (codeSignature ret tys nfixed hle).atypes := by
    simp [Signature.atypes, codeSignature]
  have hne : nfixed ≠ invalidValue := hlt.ne
  rw [getVariFnInfoFromTypes, handle, handleTypes_codes hret h, ok_map, Option.bind_some, prepFnInfos]
  simp only [hatypes, hmask, hne, ne_eq]
  change Except.ok ((myXxFiPrepCif (codeSignature ret tys nfixed hle).ret.ffi _).bind fun xx =>
    (myAaFiPrepCifVar nfixed (codeSignature ret tys nfixed hle).ret.ffi _).bind fun aa => _) = _
  rw [hxx, haa, Option.bind_some, Option.bind_some, markBlocks_zero, markBlocks_zero]
  rfl

end Iqemu64
