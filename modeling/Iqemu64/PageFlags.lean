import Mathlib.Data.BitVec
import Iqemu64.RadixTable

/-!
# Page flags

The flags of guest pages are in a table of several levels, whose first level takes the bits of a page
index that the levels below leave over. `page_set_flags` allocates the levels it needs and stores the
flags of each page of a range.
-/

namespace Iqemu64
open RadixTable List BitVec RadixTable

def vL2Bits : ℕ := 10
def vL1MinBits : ℕ := 4

/-- `L1_MAP_ADDR_SPACE_BITS` and `TARGET_PAGE_BITS`. -/
structure PageTableConfig where
  addrSpaceBits : ℕ
  pageBits : ℕ

namespace PageTableConfig

/-! `page_table_config_init`. -/

def vL1Bits (C : PageTableConfig) : ℕ :=
  let bits := (C.addrSpaceBits - C.pageBits) % vL2Bits
  if bits < vL1MinBits then bits + vL2Bits else bits

def vL1Shift (C : PageTableConfig) : ℕ := C.addrSpaceBits - C.pageBits - C.vL1Bits

def vL2Levels (C : PageTableConfig) : ℕ := C.vL1Shift / vL2Bits - 1

/-- The assertions at the end of the initialisation, and that an address fits into 64 bits. -/
structure Valid (C : PageTableConfig) : Prop where
  vL1Shift_mod : C.vL1Shift % vL2Bits = 0
  vL2Levels_nonneg : 1 ≤ C.vL1Shift / vL2Bits
  addrSpaceBits_lt : C.addrSpaceBits < 64

/-- The widths of the levels below the first: `v_l2_levels` levels of pointers and one of page
descriptors. -/
def lowerWidths (C : PageTableConfig) : List ℕ := replicate (C.vL2Levels + 1) vL2Bits

def pageSize (C : PageTableConfig) : ℕ := 2 ^ C.pageBits

end PageTableConfig

/-- The configuration of the 64-bit target in user mode. -/
def aarch64Config : PageTableConfig := ⟨48, 12⟩

theorem aarch64Config_valid : aarch64Config.Valid := ⟨by decide, by decide, by decide⟩

def pageWrite : BitVec 32 := 0x2
def pageExec : BitVec 32 := 0x4
def pageWriteOrg : BitVec 32 := 0x10
def pageExecOrg : BitVec 32 := 0x20

/-- `PageDesc`. The flags are an `unsigned long`. -/
structure PageDesc where
  firstTb : BitVec 64
  flags : BitVec 64

def noPage : PageDesc := ⟨0, 0⟩

/-- `l1_map` with all that hangs on it. -/
abbrev PageMap (C : PageTableConfig) := Table PageDesc C.vL1Bits C.lowerWidths

namespace PageMap

variable {C : PageTableConfig}

def pageFind (m : PageMap C) (index : ℕ) : Option PageDesc := find m index

def pageFindAlloc (m : PageMap C) (index : ℕ) : PageMap C × PageDesc :=
  let m : PageMap C := alloc noPage m index
  (m, (m.pageFind index).getD noPage)

def setDesc (m : PageMap C) (index : ℕ) (p : PageDesc) : PageMap C := write m index p

def pageGetFlags (m : PageMap C) (address : ℕ) : BitVec 32 :=
  match m.pageFind (address >>> C.pageBits) with
  | none => 0
  | some p => p.flags.setWidth 32

def setFirstTbs (m : PageMap C) : List (ℕ × BitVec 64) → PageMap C
  | [] => m
  | (index, firstTb) :: rest =>
    match m.pageFind index with
    | none => setFirstTbs m rest
    | some p => setFirstTbs (m.setDesc index { p with firstTb := firstTb }) rest

/-- The descriptors that `tb_invalidate_phys_page` changes. -/
abbrev Invalidation (C : PageTableConfig) := PageMap C → ℕ → List (ℕ × BitVec 64)

def storedFlags (flags : BitVec 32) : BitVec 32 :=
  let flags := if flags &&& pageWrite ≠ 0 then flags ||| pageWriteOrg else flags
  if flags &&& pageExec ≠ 0 then (flags ||| pageExecOrg) &&& ~~~pageExec
  else flags &&& ~~~pageExecOrg

variable (tbInvalidatePhysPage : Invalidation C)

def setPageFlags (m : PageMap C) (addr : ℕ) (flags : BitVec 32) : PageMap C :=
  let index := addr >>> C.pageBits
  let (m, p) := m.pageFindAlloc index
  let m :=
    if p.flags &&& pageWrite.setWidth 64 = 0 ∧ flags &&& pageWrite ≠ 0 ∧ p.firstTb ≠ 0 then
      m.setFirstTbs (tbInvalidatePhysPage m addr)
    else m
  m.setDesc index { (m.pageFind index).getD noPage with flags := flags.signExtend 64 }

def setFlagsLoop (flags : BitVec 32) : ℕ → ℕ → PageMap C → PageMap C
  | 0, _, m => m
  | n + 1, addr, m =>
    setFlagsLoop flags n (addr + C.pageSize) (m.setPageFlags tbInvalidatePhysPage addr flags)

/-- `page_set_flags`. `none` is a failed assertion. The pages are those from that of `start` up to
`TARGET_PAGE_ALIGN(end)`. -/
def pageSetFlags (m : PageMap C) (start stop : ℕ) (flags : BitVec 32) : Option (PageMap C) :=
  if stop ≤ 2 ^ C.addrSpaceBits ∧ start < stop then
    let first := start / C.pageSize
    let last := (stop + C.pageSize - 1) / C.pageSize
    some (setFlagsLoop tbInvalidatePhysPage (storedFlags flags) (last - first)
      (first * C.pageSize) m)
  else none

end PageMap

/-- A call of `page_set_flags`. -/
structure FlagsCall where
  start : ℕ
  stop : ℕ
  flags : BitVec 32

namespace FlagsCall

def covers (C : PageTableConfig) (a : ℕ) (c : FlagsCall) : Bool :=
  c.start / C.pageSize ≤ a / C.pageSize && a / C.pageSize < (c.stop + C.pageSize - 1) / C.pageSize

def last (C : PageTableConfig) (calls : List FlagsCall) (a : ℕ) : Option FlagsCall :=
  calls.reverse.find? (covers C a)

def ValidRange (C : PageTableConfig) (c : FlagsCall) : Prop :=
  c.start < c.stop ∧ c.stop ≤ 2 ^ C.addrSpaceBits

def run {C : PageTableConfig} (I : PageMap.Invalidation C) :
    PageMap C → List FlagsCall → Option (PageMap C)
  | m, [] => some m
  | m, c :: calls => (m.pageSetFlags I c.start c.stop c.flags).bind (run I · calls)

end FlagsCall

/-- The flags that are recorded for a request: execute permission is kept as `PAGE_EXEC_ORG` and not as
`PAGE_EXEC`, write permission sets `PAGE_WRITE_ORG` as well, and all others are as requested. -/
structure Recorded (flags recorded : BitVec 32) : Prop where
  exec : recorded.getLsbD 2 = false
  execOrg : recorded.getLsbD 5 = flags.getLsbD 2
  writeOrg : recorded.getLsbD 4 = (flags.getLsbD 4 || flags.getLsbD 1)
  others : ∀ i, i ≠ 2 → i ≠ 4 → i ≠ 5 → recorded.getLsbD i = flags.getLsbD i

/-! ### The stored flags -/

theorem and_twoPow_ne_zero_iff {w : ℕ} (x : BitVec w) (i : ℕ) (hi : i < w) :
    x &&& twoPow w i ≠ 0 ↔ x.getLsbD i = true := by
  rw [and_twoPow]
  cases x.getLsbD i with
  | false => simp
  | true =>
    simp only [if_true, ne_eq, iff_true]
    intro h
    have hbit := congrArg (fun y => y.getLsbD i) h
    simp [hi] at hbit

theorem getLsbD_withWriteOrg (flags : BitVec 32) (i : ℕ) :
    (if flags &&& pageWrite ≠ 0 then flags ||| pageWriteOrg else flags).getLsbD i =
      (flags.getLsbD i || (decide (i = 4) && flags.getLsbD 1)) := by
  have hwrite : flags &&& pageWrite ≠ 0 ↔ flags.getLsbD 1 = true :=
    and_twoPow_ne_zero_iff flags 1 (by decide)
  have horg : pageWriteOrg.getLsbD i = decide (i = 4) := by
    rw [show pageWriteOrg = twoPow 32 4 from rfl, getLsbD_twoPow]
    simp [eq_comm]
  simp only [hwrite]
  split
  · rename_i h
    rw [getLsbD_or, horg, h, Bool.and_true]
  · rename_i h
    rw [Bool.eq_false_iff.mpr h, Bool.and_false, Bool.or_false]

theorem getLsbD_storedFlags (flags : BitVec 32) (i : ℕ) :
    (PageMap.storedFlags flags).getLsbD i =
      if i = 2 then false else if i = 5 then flags.getLsbD 2
      else (flags.getLsbD i || (decide (i = 4) && flags.getLsbD 1)) := by
  have hexec : pageExec.getLsbD i = decide (i = 2) := by
    rw [show pageExec = twoPow 32 2 from rfl, getLsbD_twoPow]
    simp [eq_comm]
  have horg : pageExecOrg.getLsbD i = decide (i = 5) := by
    rw [show pageExecOrg = twoPow 32 5 from rfl, getLsbD_twoPow]
    simp [eq_comm]
  unfold PageMap.storedFlags
  generalize hf : (if flags &&& pageWrite ≠ 0 then flags ||| pageWriteOrg else flags) = f
  have hbits : ∀ k, f.getLsbD k = (flags.getLsbD k || (decide (k = 4) && flags.getLsbD 1)) :=
    fun k => hf ▸ getLsbD_withWriteOrg flags k
  have hbit2 : f.getLsbD 2 = flags.getLsbD 2 := by
    rw [hbits, decide_eq_false (by decide), Bool.false_and, Bool.or_false]
  have htest : f &&& pageExec ≠ 0 ↔ flags.getLsbD 2 = true :=
    hbit2 ▸ and_twoPow_ne_zero_iff f 2 (by decide)
  by_cases hi : i < 32
  · simp only [htest]
    split
    · rename_i h
      rw [getLsbD_and, getLsbD_or, getLsbD_not, horg, hexec, hbits]
      by_cases h2 : i = 2
      · simp [h2]
      by_cases h5 : i = 5
      · simp [h5, h]
      · simp [h2, h5, hi]
    · rename_i h
      rw [getLsbD_and, getLsbD_not, horg, hbits]
      by_cases h2 : i = 2
      · subst h2
        rw [Bool.eq_false_iff.mpr h]
        rfl
      by_cases h5 : i = 5
      · rw [Bool.eq_false_iff.mpr h]
        simp [h5]
      · simp [h2, h5, hi]
  · have hhigh : ∀ x : BitVec 32, x.getLsbD i = false := fun x => getLsbD_of_ge x i (by omega)
    rw [hhigh, hhigh]
    simp [show i ≠ 2 by omega, show i ≠ 5 by omega, show i ≠ 4 by omega]

theorem recorded_storedFlags (flags : BitVec 32) : Recorded flags (PageMap.storedFlags flags) := by
  constructor
  · rw [getLsbD_storedFlags, if_pos rfl]
  · rw [getLsbD_storedFlags, if_neg (by decide), if_pos rfl]
  · rw [getLsbD_storedFlags, if_neg (by decide), if_neg (by decide), decide_eq_true rfl, Bool.true_and]
  · intro i h2 h4 h5
    rw [getLsbD_storedFlags, if_neg h2, if_neg h5, decide_eq_false h4, Bool.false_and, Bool.or_false]

/-! ### The table as a map -/

namespace PageMap

variable {C : PageTableConfig}

def desc (m : PageMap C) (index : ℕ) : PageDesc := lookup noPage m index

theorem pageGetFlags_eq (m : PageMap C) (a : ℕ) :
    m.pageGetFlags a = (m.desc (a >>> C.pageBits)).flags.setWidth 32 := by
  unfold pageGetFlags desc RadixTable.lookup pageFind
  cases find m (a >>> C.pageBits) with
  | none => rfl
  | some p => rfl

theorem bits_eq (hC : C.Valid) :
    bits C.vL1Bits C.lowerWidths = C.addrSpaceBits - C.pageBits := by
  obtain ⟨hmod, hlevels, -⟩ := hC
  have hl1 : C.vL1Bits ≤ C.addrSpaceBits - C.pageBits := by
    have hpos : C.vL1Shift ≠ 0 := by
      intro h0
      rw [h0] at hlevels
      exact absurd hlevels (by decide)
    have : C.vL1Shift = C.addrSpaceBits - C.pageBits - C.vL1Bits := rfl
    omega
  have hshift : C.vL1Shift = C.addrSpaceBits - C.pageBits - C.vL1Bits := rfl
  have hlower : C.lowerWidths.sum = C.vL1Shift := by
    rw [PageTableConfig.lowerWidths, sum_replicate_nat, PageTableConfig.vL2Levels,
      Nat.sub_add_cancel hlevels, Nat.div_mul_cancel (Nat.dvd_of_mod_eq_zero hmod)]
  rw [bits, hlower, hshift]
  omega

theorem desc_setDesc (hC : C.Valid) {m : PageMap C} {i j : ℕ} {p : PageDesc}
    (hi : i < 2 ^ (C.addrSpaceBits - C.pageBits)) (hj : j < 2 ^ (C.addrSpaceBits - C.pageBits))
    (halloc : (m.pageFind i).isSome) :
    (m.setDesc i p).desc j = if i = j then p else m.desc j := by
  unfold desc setDesc
  rw [lookup_write noPage m p halloc j, bits_eq hC, Nat.mod_eq_of_lt hi, Nat.mod_eq_of_lt hj]

def flagsOf (m : PageMap C) (index : ℕ) : BitVec 64 := (m.desc index).flags

theorem pageFind_isSome_desc {m : PageMap C} {i : ℕ} {p : PageDesc} (h : m.pageFind i = some p) :
    m.desc i = p := by
  unfold desc RadixTable.lookup
  rw [show find m i = some p from h]
  rfl

theorem flagsOf_setFirstTbs (ws : List (ℕ × BitVec 64)) (m : PageMap C) (j : ℕ) :
    (m.setFirstTbs ws).flagsOf j = m.flagsOf j := by
  induction ws generalizing m with
  | nil => rfl
  | cons w ws ih =>
    obtain ⟨i, firstTb⟩ := w
    rw [setFirstTbs]
    cases hp : m.pageFind i with
    | none => exact ih m
    | some p =>
      simp only
      rw [ih, flagsOf, flagsOf, desc, setDesc,
        lookup_write noPage m _ (by rw [show find m i = some p from hp]; rfl)]
      split
      · rename_i hij
        have hj : find m j = some p := (find_congr m hij).symm.trans hp
        rw [pageFind_isSome_desc hj]
      · rfl

theorem flagsOf_pageFindAlloc (m : PageMap C) (i j : ℕ) :
    (m.pageFindAlloc i).1.flagsOf j = m.flagsOf j := by
  unfold flagsOf desc pageFindAlloc
  rw [lookup_alloc]

theorem setFirstTbs_isSome (ws : List (ℕ × BitVec 64)) (m : PageMap C) {j : ℕ}
    (h : (m.pageFind j).isSome) : ((m.setFirstTbs ws).pageFind j).isSome := by
  induction ws generalizing m with
  | nil => exact h
  | cons w ws ih =>
    obtain ⟨i, firstTb⟩ := w
    rw [setFirstTbs]
    cases hp : m.pageFind i with
    | none => exact ih m h
    | some p => exact ih _ (find_write_isSome m i _ h)

variable (I : Invalidation C)

/-- One page of the loop stores the flags of that page. -/
theorem flagsOf_setPageFlags (hC : C.Valid) (m : PageMap C) {addr : ℕ} (flags : BitVec 32) {j : ℕ}
    (haddr : addr >>> C.pageBits < 2 ^ (C.addrSpaceBits - C.pageBits))
    (hj : j < 2 ^ (C.addrSpaceBits - C.pageBits)) :
    (m.setPageFlags I addr flags).flagsOf j =
      if addr >>> C.pageBits = j then flags.signExtend 64 else m.flagsOf j := by
  have hfound : ((m.pageFindAlloc (addr >>> C.pageBits)).1.pageFind (addr >>> C.pageBits)).isSome := by
    unfold pageFindAlloc pageFind
    rw [find_alloc_self]
    rfl
  have hflags := flagsOf_pageFindAlloc m (addr >>> C.pageBits) j
  simp only [setPageFlags]
  split
  · rw [flagsOf, desc_setDesc hC haddr hj (setFirstTbs_isSome _ _ hfound)]
    split
    · rfl
    · rw [← hflags]
      exact flagsOf_setFirstTbs _ _ j
  · rw [flagsOf, desc_setDesc hC haddr hj hfound]
    split
    · rfl
    · exact hflags

/-- The loop over a range of pages stores the flags of these. -/
theorem flagsOf_setFlagsLoop (hC : C.Valid) (flags : BitVec 32) (n k : ℕ) (m : PageMap C) {j : ℕ}
    (hk : k + n ≤ 2 ^ (C.addrSpaceBits - C.pageBits)) (hj : j < 2 ^ (C.addrSpaceBits - C.pageBits)) :
    (setFlagsLoop I flags n (k * C.pageSize) m).flagsOf j =
      if k ≤ j ∧ j < k + n then flags.signExtend 64 else m.flagsOf j := by
  have hindex : ∀ k, (k * C.pageSize) >>> C.pageBits = k := fun k => by
    rw [Nat.shiftRight_eq_div_pow]
    exact Nat.mul_div_cancel k (Nat.two_pow_pos _)
  induction n generalizing k m with
  | zero => rw [setFlagsLoop, if_neg (by omega)]
  | succ n ih =>
    have hnext : k * C.pageSize + C.pageSize = (k + 1) * C.pageSize := (Nat.succ_mul _ _).symm
    rw [setFlagsLoop, hnext, ih (k + 1) _ (by omega),
      flagsOf_setPageFlags I hC m flags (by rw [hindex]; omega) hj, hindex]
    by_cases hkj : k = j
    · rw [if_neg (by omega), if_pos hkj, if_pos (by omega)]
    · rw [if_neg hkj]
      by_cases hrange : k + 1 ≤ j ∧ j < k + 1 + n
      · rw [if_pos hrange, if_pos (by omega)]
      · rw [if_neg hrange, if_neg (by omega)]

end PageMap

theorem setWidth_signExtend (x : BitVec 32) : (x.signExtend 64).setWidth 32 = x := by
  apply eq_of_getLsbD_eq
  intro i hi
  rw [getLsbD_setWidth, getLsbD_signExtend]
  simp [hi, show i < 64 by omega]

section Calls
variable {C : PageTableConfig} (I : PageMap.Invalidation C)

/-- A page index of an address, or of the end of a range. -/
theorem pageIndex_le (hC : C.Valid) {a : ℕ} (ha : a ≤ 2 ^ C.addrSpaceBits) :
    (a + C.pageSize - 1) / C.pageSize ≤ 2 ^ (C.addrSpaceBits - C.pageBits) := by
  have hbits : C.pageBits ≤ C.addrSpaceBits := by
    have hlevels := hC.vL2Levels_nonneg
    by_contra hlt
    have hzero : C.vL1Shift = 0 := by
      unfold PageTableConfig.vL1Shift
      omega
    rw [hzero] at hlevels
    exact absurd hlevels (by decide)
  have hsize : 2 ^ C.addrSpaceBits = 2 ^ (C.addrSpaceBits - C.pageBits) * C.pageSize := by
    rw [PageTableConfig.pageSize, ← pow_add, Nat.sub_add_cancel hbits]
  have hpos : 0 < C.pageSize := Nat.two_pow_pos _
  rw [Nat.div_le_iff_le_mul_add_pred hpos, Nat.mul_comm, ← hsize]
  omega

/-- A call stores its flags for all pages of its range and changes no other. -/
theorem pageGetFlags_pageSetFlags (hC : C.Valid) (m : PageMap C) {c : FlagsCall}
    (hc : c.ValidRange C) :
    ∃ m', m.pageSetFlags I c.start c.stop c.flags = some m' ∧
      ∀ a, a < 2 ^ C.addrSpaceBits → m'.pageGetFlags a =
        if c.covers C a then PageMap.storedFlags c.flags else m.pageGetFlags a := by
  refine ⟨_, if_pos ⟨hc.2, hc.1⟩, fun a ha => ?_⟩
  have hpos : 0 < C.pageSize := Nat.two_pow_pos _
  have hshift : a >>> C.pageBits = a / C.pageSize := Nat.shiftRight_eq_div_pow a C.pageBits
  have hlast := pageIndex_le hC hc.2
  have hfirst : c.start / C.pageSize ≤ (c.stop + C.pageSize - 1) / C.pageSize :=
    Nat.div_le_div_right (by have := hc.1; omega)
  have hindex : a / C.pageSize < 2 ^ (C.addrSpaceBits - C.pageBits) := by
    have hle := pageIndex_le hC (a := a + 1) (by omega)
    rw [show a + 1 + C.pageSize - 1 = a + C.pageSize by omega, Nat.add_div_right _ hpos] at hle
    exact hle
  have hloop := PageMap.flagsOf_setFlagsLoop I hC (PageMap.storedFlags c.flags)
    ((c.stop + C.pageSize - 1) / C.pageSize - c.start / C.pageSize) (c.start / C.pageSize) m
    (by omega) hindex
  rw [PageMap.pageGetFlags_eq, PageMap.pageGetFlags_eq, hshift]
  unfold PageMap.flagsOf at hloop
  rw [hloop]
  simp only [FlagsCall.covers, Bool.and_eq_true, decide_eq_true_eq]
  by_cases hin : c.start / C.pageSize ≤ a / C.pageSize ∧
      a / C.pageSize < (c.stop + C.pageSize - 1) / C.pageSize
  · rw [if_pos (by omega), if_pos hin, setWidth_signExtend]
  · rw [if_neg (by omega), if_neg hin]

theorem last_cons (c : FlagsCall) (calls : List FlagsCall) (a : ℕ) :
    FlagsCall.last C (c :: calls) a =
      (FlagsCall.last C calls a).or (if c.covers C a then some c else none) := by
  rw [FlagsCall.last, reverse_cons, find?_append, find?_singleton]
  rfl

/-- The flags after a run of calls are those of the last call on the page. -/
theorem pageGetFlags_run (hC : C.Valid) (calls : List FlagsCall)
    (hcalls : ∀ c ∈ calls, c.ValidRange C) (m : PageMap C) :
    ∃ m', FlagsCall.run I m calls = some m' ∧ ∀ a, a < 2 ^ C.addrSpaceBits → m'.pageGetFlags a =
      match FlagsCall.last C calls a with
      | none => m.pageGetFlags a
      | some c => PageMap.storedFlags c.flags := by
  induction calls generalizing m with
  | nil => exact ⟨m, rfl, fun _ _ => rfl⟩
  | cons c calls ih =>
    obtain ⟨m₁, hm₁, hflags₁⟩ := pageGetFlags_pageSetFlags I hC m (hcalls c mem_cons_self)
    obtain ⟨m₂, hm₂, hflags₂⟩ := ih (forall_mem_cons.mp hcalls).2 m₁
    refine ⟨m₂, by rw [FlagsCall.run, hm₁, Option.bind_some, hm₂], fun a ha => ?_⟩
    rw [hflags₂ a ha, last_cons]
    cases FlagsCall.last C calls a with
    | some c' => rfl
    | none =>
      simp only [Option.none_or]
      rw [hflags₁ a ha]
      split
      · rfl
      · rfl

end Calls

/-- After any calls on valid ranges a page has the flags recorded for the last call on it, and none if
there was no such call. -/
theorem pageSetFlags_isMap (C : PageTableConfig) (hC : C.Valid) (I : PageMap.Invalidation C)
    (calls : List FlagsCall) (hcalls : ∀ c ∈ calls, c.ValidRange C) :
    ∃ m, FlagsCall.run I (empty noPage C.vL1Bits C.lowerWidths) calls = some m ∧
      ∀ a, a < 2 ^ C.addrSpaceBits →
        match FlagsCall.last C calls a with
        | none => m.pageGetFlags a = 0
        | some c => Recorded c.flags (m.pageGetFlags a) := by
  obtain ⟨m, hm, hflags⟩ := pageGetFlags_run I hC calls hcalls (empty noPage _ _)
  refine ⟨m, hm, fun a ha => ?_⟩
  have ha' := hflags a ha
  cases hlast : FlagsCall.last C calls a with
  | some c =>
    rw [hlast] at ha'
    simp only at ha' ⊢
    rw [ha']
    exact recorded_storedFlags c.flags
  | none =>
    rw [hlast] at ha'
    simp only at ha' ⊢
    rw [ha', PageMap.pageGetFlags_eq, PageMap.desc, lookup_empty]
    rfl

/-- Two pages made readable and executable, then one of them writable. -/
theorem pageSetFlags_isMap_twice :
    ∃ m, FlagsCall.run (fun _ _ => [])
        (empty noPage aarch64Config.vL1Bits aarch64Config.lowerWidths)
        [⟨0x10000, 0x12000, 0x5⟩, ⟨0x11000, 0x11800, 0x3⟩] = some m ∧
      ∀ a, a < 2 ^ aarch64Config.addrSpaceBits →
        match FlagsCall.last aarch64Config [⟨0x10000, 0x12000, 0x5⟩, ⟨0x11000, 0x11800, 0x3⟩] a with
        | none => m.pageGetFlags a = 0
        | some c => Recorded c.flags (m.pageGetFlags a) := by
  refine pageSetFlags_isMap aarch64Config aarch64Config_valid (fun _ _ => []) _ fun c hc => ?_
  simp only [mem_cons, not_mem_nil, or_false] at hc
  obtain rfl | rfl := hc
  · exact ⟨by decide, by decide⟩
  · exact ⟨by decide, by decide⟩

end Iqemu64
