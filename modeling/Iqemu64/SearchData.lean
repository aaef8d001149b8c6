import Mathlib.Data.List.FinRange
import Mathlib.Logic.Function.Basic
import Iqemu64.Sleb128

/-!
# From host code back to guest instructions

Behind the code of a block stands a table with a row for each guest instruction: its start data and the
end of its host code. `encode_search` writes each row as differences from the row before, and
`cpu_restore_state_from_tb` adds them up until the end passes the host address it looks for.
-/

namespace Iqemu64
open List Sleb128

/-- `gen_insn_data[i]` and `gen_insn_end_off[i]`. -/
structure InsnRow where
  data : Fin 3 → BitVec 64
  endOff : BitVec 16

namespace InsnRow

def off (row : InsnRow) : BitVec 64 := row.endOff.setWidth 64

def encode (prev row : InsnRow) : List (BitVec 8) :=
  (finRange 3).flatMap (fun j => Sleb128.encode (row.data j - prev.data j)) ++
    Sleb128.encode (row.off - prev.off)

end InsnRow

/-- The part of a `TranslationBlock` that the table is about. -/
structure SearchTb where
  pc : BitVec 64
  tcPtr : BitVec 64
  insns : List InsnRow

namespace SearchTb

def seed (tb : SearchTb) : InsnRow := ⟨fun j => if j = 0 then tb.pc else 0, 0⟩

def encodeRows (highwater : ℕ) : ℕ → InsnRow → List InsnRow → List (BitVec 8) × Bool
  | _, _, [] => ([], true)
  | p, prev, row :: rows =>
    let bytes := prev.encode row
    if p + bytes.length > highwater then (bytes, false)
    else
      let (later, ok) := encodeRows highwater (p + bytes.length) row rows
      (bytes ++ later, ok)

def encodeSearch (tb : SearchTb) (highwater block : ℕ) : List (BitVec 8) × Bool :=
  encodeRows highwater block tb.seed tb.insns

/-- The loop over the words of a row. `none` is a read past the bytes given. -/
def decodeData : List (Fin 3) → (Fin 3 → BitVec 64) → List (BitVec 8) →
    Option ((Fin 3 → BitVec 64) × List (BitVec 8))
  | [], data, bytes => some (data, bytes)
  | j :: js, data, bytes =>
    (decode bytes).bind fun (d, bytes) =>
      decodeData js (Function.update data j (data j + d)) bytes

def restoreLoop (searchedPc : BitVec 64) : ℕ → (Fin 3 → BitVec 64) → BitVec 64 → List (BitVec 8) →
    Option (Option (Fin 3 → BitVec 64))
  | 0, _, _, _ => some none
  | n + 1, data, hostPc, bytes =>
    (decodeData (finRange 3) data bytes).bind fun (data, bytes) =>
      (decode bytes).bind fun (d, bytes) =>
        if searchedPc < hostPc + d then some (some data)
        else restoreLoop searchedPc n data (hostPc + d) bytes

def getpcAdj : BitVec 64 := 2

/-- `cpu_restore_state_from_tb` with `bytes` from the end of the block's code on: the data that is handed to
`restore_state_to_opc`, or `some none` where it returns `-1`. The instruction counter is left out. -/
def cpuRestoreStateFromTb (tb : SearchTb) (bytes : List (BitVec 8)) (searchedPc : BitVec 64) :
    Option (Option (Fin 3 → BitVec 64)) :=
  let searchedPc := searchedPc - getpcAdj
  if searchedPc < tb.tcPtr then some none
  else restoreLoop searchedPc tb.insns.length tb.seed.data tb.tcPtr bytes

def allRows : InsnRow → List InsnRow → List (BitVec 8)
  | _, [] => []
  | prev, row :: rows => prev.encode row ++ allRows row rows

def startOff (tb : SearchTb) : ℕ → ℕ
  | 0 => 0
  | i + 1 => (tb.insns[i]?.map fun row => row.endOff.toNat).getD 0

def endOff (tb : SearchTb) : ℕ := tb.startOff tb.insns.length

/-! ### Decoding what was encoded -/

theorem decodeData_encode (js : List (Fin 3)) (hjs : js.Nodup) (prev row : Fin 3 → BitVec 64)
    (rest : List (BitVec 8)) :
    decodeData js prev (js.flatMap (fun j => encode (row j - prev j)) ++ rest) =
      some (fun j => if j ∈ js then row j else prev j, rest) := by
  induction js generalizing prev with
  | nil => simp [decodeData]
  | cons j js ih =>
    obtain ⟨hj, hjs⟩ := nodup_cons.mp hjs
    let next := Function.update prev j (row j)
    have hnext : ∀ k ∈ js, next k = prev k := fun k hk =>
      Function.update_of_ne (ne_of_mem_of_not_mem hk hj) _ _
    have hrest : js.flatMap (fun j => encode (row j - prev j)) =
        js.flatMap (fun j => encode (row j - next j)) := by
      refine flatMap_congr fun k hk => ?_
      rw [hnext k hk]
    rw [flatMap_cons, append_assoc, decodeData, decode_encode, Option.bind_some,
      hrest]
    show decodeData js (Function.update prev j (prev j + (row j - prev j))) _ = _
    rw [add_sub_cancel, ih hjs next]
    congr 2
    funext k
    by_cases hk : k = j
    · subst hk
      simp [hj, next]
    · simp [hk, next]

/-- The loop finds the first row whose end is past the address. -/
theorem restoreLoop_allRows (searchedPc base : BitVec 64) (prev : InsnRow) (rows : List InsnRow)
    (rest : List (BitVec 8)) :
    restoreLoop searchedPc rows.length prev.data (base + prev.off) (allRows prev rows ++ rest) =
      some ((rows.find? fun row => searchedPc < base + row.off).map InsnRow.data) := by
  induction rows generalizing prev with
  | nil => rfl
  | cons row rows ih =>
    have hoff : base + prev.off + (row.off - prev.off) = base + row.off := by
      rw [add_assoc, add_sub_cancel]
    rw [length_cons, restoreLoop, allRows, InsnRow.encode, append_assoc, append_assoc,
      decodeData_encode _ (nodup_finRange 3), Option.bind_some]
    simp only [mem_finRange, if_true]
    rw [decode_encode, Option.bind_some, hoff]
    by_cases hfound : searchedPc < base + row.off
    · simp [hfound]
    · rw [if_neg hfound, ih row, find?_cons_of_neg (by simpa using hfound)]

/-! ### The highwater mark -/

/-- A complete table has all rows and ends below the mark. -/
theorem encodeRows_true {highwater p : ℕ} {prev : InsnRow} {rows : List InsnRow}
    {bytes : List (BitVec 8)} (h : encodeRows highwater p prev rows = (bytes, true)) :
    bytes = allRows prev rows ∧ (bytes = [] ∨ p + bytes.length ≤ highwater) := by
  induction rows generalizing p prev bytes with
  | nil =>
    cases h
    exact ⟨rfl, .inl rfl⟩
  | cons row rows ih =>
    rw [encodeRows] at h
    split at h
    · cases h
    · rename_i hroom
      cases hrest : encodeRows highwater (p + (prev.encode row).length) row rows with
      | mk later ok =>
        simp only [hrest] at h
        obtain ⟨rfl, rfl⟩ := Prod.mk.injEq .. ▸ h
        obtain ⟨rfl, hlater⟩ := ih hrest
        refine ⟨rfl, .inr ?_⟩
        rw [length_append]
        obtain hnil | hle := hlater
        · rw [hnil, length_nil]
          omega
        · omega

/-! ### Searching -/

variable {tb : SearchTb} {pc : BitVec 64}

theorem off_toNat (row : InsnRow) : row.off.toNat = row.endOff.toNat := by
  rw [InsnRow.off, BitVec.toNat_setWidth]
  have := row.endOff.isLt
  omega

theorem lt_add_off_iff {base : BitVec 64} {row : InsnRow}
    (hfit : base.toNat + row.endOff.toNat < 2 ^ 64) :
    pc < base + row.off ↔ pc.toNat < base.toNat + row.endOff.toNat := by
  rw [BitVec.lt_def, BitVec.toNat_add, off_toNat, Nat.mod_eq_of_lt hfit]

theorem startOff_succ {i : ℕ} {row : InsnRow} (h : tb.insns[i]? = some row) :
    tb.startOff (i + 1) = row.endOff.toNat := by
  simp [startOff, h]

theorem endOff_le_startOff (hmono : tb.insns.Pairwise fun a b => a.endOff.toNat ≤ b.endOff.toNat)
    {i k : ℕ} (hik : i < k) (hk : k ≤ tb.insns.length) {row : InsnRow} (h : tb.insns[i]? = some row) :
    row.endOff.toNat ≤ tb.startOff k := by
  obtain ⟨k, rfl⟩ : ∃ m, k = m + 1 := ⟨k - 1, by omega⟩
  obtain ⟨hi, rfl⟩ := List.getElem?_eq_some_iff.mp h
  rw [startOff_succ (getElem?_eq_getElem (by omega : k < tb.insns.length))]
  obtain rfl | hlt : i = k ∨ i < k := by omega
  · exact le_rfl
  · exact pairwise_iff_getElem.mp hmono i k hi (by omega) hlt

/-- The search in terms of the table, at an address in or behind the block. -/
theorem cpuRestoreStateFromTb_eq (hpc : tb.tcPtr.toNat ≤ pc.toNat) (rest : List (BitVec 8)) :
    tb.cpuRestoreStateFromTb (allRows tb.seed tb.insns ++ rest) (pc + getpcAdj) =
      some ((tb.insns.find? fun row => pc < tb.tcPtr + row.off).map InsnRow.data) := by
  have hbase : tb.tcPtr = tb.tcPtr + tb.seed.off := by
    have : tb.seed.off = 0 := rfl
    rw [this, add_zero]
  rw [cpuRestoreStateFromTb, add_sub_cancel_right, if_neg (by rw [BitVec.lt_def]; omega)]
  conv_lhs => rw [hbase]
  exact restoreLoop_allRows pc tb.tcPtr tb.seed tb.insns rest

theorem find_inside (hmono : tb.insns.Pairwise fun a b => a.endOff.toNat ≤ b.endOff.toNat)
    (hfit : ∀ row ∈ tb.insns, tb.tcPtr.toNat + row.endOff.toNat < 2 ^ 64) {i : ℕ} {row : InsnRow}
    (hrow : tb.insns[i]? = some row) (hlo : tb.tcPtr.toNat + tb.startOff i ≤ pc.toNat)
    (hhi : pc.toNat < tb.tcPtr.toNat + row.endOff.toNat) :
    tb.insns.find? (fun row => pc < tb.tcPtr + row.off) = some row := by
  obtain ⟨hi, hrow'⟩ := List.getElem?_eq_some_iff.mp hrow
  rw [find?_eq_some_iff_getElem]
  refine ⟨?_, i, hi, hrow', fun j hj => ?_⟩
  · exact decide_eq_true ((lt_add_off_iff (hfit row (mem_of_getElem? hrow))).mpr hhi)
  · have hjrow : tb.insns[j]? = some tb.insns[j] := getElem?_eq_getElem (by omega)
    have hle := endOff_le_startOff hmono hj hi.le hjrow
    rw [Bool.not_eq_true', decide_eq_false_iff_not, lt_add_off_iff (hfit _ (getElem_mem _))]
    omega

theorem find_behind (hmono : tb.insns.Pairwise fun a b => a.endOff.toNat ≤ b.endOff.toNat)
    (hfit : ∀ row ∈ tb.insns, tb.tcPtr.toNat + row.endOff.toNat < 2 ^ 64)
    (hpc : tb.tcPtr.toNat + tb.endOff ≤ pc.toNat) :
    tb.insns.find? (fun row => pc < tb.tcPtr + row.off) = none := by
  rw [find?_eq_none]
  intro row hrow
  obtain ⟨i, hi, hget⟩ := getElem_of_mem hrow
  have hle := endOff_le_startOff hmono hi le_rfl
    ((getElem?_eq_getElem hi).trans (congrArg some hget))
  rw [decide_eq_true_iff, lt_add_off_iff (hfit row hrow)]
  have : tb.endOff = tb.startOff tb.insns.length := rfl
  omega

end SearchTb

structure SearchTb.TableWorks (tb : SearchTb) (highwater block : ℕ) : Prop where
  inside : ∀ bytes rest, tb.encodeSearch highwater block = (bytes, true) →
    ∀ i row pc, tb.insns[i]? = some row → tb.tcPtr.toNat + tb.startOff i ≤ pc.toNat →
      pc.toNat < tb.tcPtr.toNat + row.endOff.toNat →
      tb.cpuRestoreStateFromTb (bytes ++ rest) (pc + getpcAdj) = some (some row.data)
  outside : ∀ bytes rest, tb.encodeSearch highwater block = (bytes, true) →
    ∀ pc, pc.toNat < tb.tcPtr.toNat ∨ tb.tcPtr.toNat + tb.endOff ≤ pc.toNat →
      tb.cpuRestoreStateFromTb (bytes ++ rest) (pc + getpcAdj) = some none
  reported : ∀ bytes ok, tb.encodeSearch highwater block = (bytes, ok) →
    (∃ k < bytes.length, highwater ≤ block + k) → ok = false

def twoInsns : SearchTb where
  pc := 0x100000000
  tcPtr := 0x10000
  insns := [⟨fun j => if j = 0 then 0x100000000 else 0, 12⟩,
    ⟨fun j => if j = 0 then 0x100000004 else 0, 30⟩]

end Iqemu64
