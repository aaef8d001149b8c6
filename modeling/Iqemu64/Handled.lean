import Iqemu64.A2xExit
import Iqemu64.X2aExit
import Iqemu64.XxPieces

/-!
# No translator meets a placement it does not handle

The translators assert that only certain combinations of placements occur. `ArgHandled` and
`RetHandled` are these combinations. The two preparations produce nothing else, for flat types in any
number, so no assertion of the translators fails.
-/

namespace Iqemu64
open ByteMemory X64 List Option ABIArgInfo Bool Signature

def SplitPair (a : ABIArgInfo AReg) (x : ABIArgInfo XReg) : Prop :=
  ∃ n v elems, 2 ≤ elems ∧ elems ≤ 4 ∧ n + (elems + 1) / 2 ≤ 8 ∧ v + elems ≤ 8 ∧
    x.regs = (range' n ((elems + 1) / 2)).map .xmm ∧ a.regs = (range' v elems).map .q

structure ArgHandled (a : ABIArgInfo AReg) (x : ABIArgInfo XReg) : Prop where
  pointer_mem : a.indirect = true → x.teIsMem = true
  direct : x.indirect = false
  counts : a.indirect = false → a.teIsMem = false → x.teIsMem = false →
    x.teNumOfReg = a.teNumOfReg ∨ SplitPair a x
  size_eq : a.size = x.size
  pointer_size : a.indirect = true → 2 < x.size

structure RetHandled (a : ABIArgInfo AReg) (x : ABIArgInfo XReg) : Prop where
  mem : a.indirect = true → x.indirect = true
  double : x.indirect = true → a.indirect = false → a.teGetReg 0 = some (.d 0)

section Placed
variable {t : FlatType} {al al' : AaAlloc} {xl xl' : XxAlloc} {a : ABIArgInfo AReg}
  {x : ABIArgInfo XReg}

theorem counts_vector {elems width : ℕ} (hv : t.vector = some (elems, width))
    (hfit : al.ssecount + elems ≤ 8) (hfits : t.XxFits xl) :
    (t.xxInRegs xl).teNumOfReg = (aaInRegs .q al.ssecount elems t.size).teNumOfReg ∨
      SplitPair (aaInRegs .q al.ssecount elems t.size) (t.xxInRegs xl) := by
  obtain ⟨h1, h4, hwidth, hsize⟩ := FlatType.vector_spec hv
  have hsse := FlatType.classes_isSse (t := t) (by rw [hv]; simp)
  rw [teNumOfReg_xxInRegs hfits, teNumOfReg_aaInRegs]
  by_cases hone : elems = 1 ∨ width = 8
  · refine Or.inl ?_
    rcases hone with rfl | rfl
    · rcases hwidth with rfl | rfl <;> omega
    · omega
  · refine Or.inr ⟨xl.ssecount, al.ssecount, elems, by omega, h4, ?_, hfit, ?_, ?_⟩
    all_goals obtain rfl : width = 4 := by omega
    all_goals have hlen := FlatType.classes_length_of_le hfits.size
    · have := hfits.sse
      rw [List.countP_eq_length.mpr hsse, hlen] at this
      omega
    · simp only [regs, xxPieces_of_isSse t.locInfo hsse, List.map_map, hlen]
      rw [show (t.size + 7) / 8 = (elems + 1) / 2 by omega]
      rfl
    · simp [regs, aaRegs, List.range'_eq_map_range, Function.comp_def]

theorem argHandled_placed (ha : AaPlaced t al a al') (hx : XxPlaced t xl x xl') : ArgHandled a x := by
  have hsize : a.size = x.size := ha.size_eq.trans hx.size_eq.symm
  have hxsize := hx.size_eq
  cases hx with
  | stack =>
    refine ⟨fun _ => rfl, rfl, fun _ _ h => Bool.noConfusion h, hsize, fun hind => ?_⟩
    cases ha with
    | pointer hv h16 | stackPointer hv h16 => exact lt_trans (by norm_num) h16
    | vector | general | stackVector | stackGeneral => cases hind
  | regs hfits =>
    have h16 := hfits.size
    cases ha with
    | vector hv hfit =>
      exact ⟨fun h => Bool.noConfusion h, rfl, fun _ _ _ => counts_vector hv hfit hfits, hsize,
        fun h => Bool.noConfusion h⟩
    | general hv _ hfit =>
      refine ⟨fun h => Bool.noConfusion h, rfl, fun _ _ _ => Or.inl ?_, hsize,
        fun h => Bool.noConfusion h⟩
      rw [teNumOfReg_xxInRegs hfits, teNumOfReg_aaInRegs]
    | stackVector | stackGeneral =>
      exact ⟨fun h => Bool.noConfusion h, rfl, fun _ h => Bool.noConfusion h, hsize,
        fun h => Bool.noConfusion h⟩
    | pointer hv h | stackPointer hv h => exact absurd h16 (by omega)

theorem retHandled_placed {r : Option FlatType} (h : RetPlaced r a x) : RetHandled a x := by
  cases h with
  | doublesMem hn =>
    refine ⟨fun h => Bool.noConfusion h, fun _ _ => ?_⟩
    rcases hn with rfl | rfl <;> rfl
  | mem => exact ⟨fun _ => rfl, fun _ h => Bool.noConfusion h⟩
  | void | word | general | pair | float | floats2 | floats | double | doubles2 =>
    exact ⟨fun h => Bool.noConfusion h, fun h => Bool.noConfusion h⟩

end Placed

section Args
variable {L : EnvLayout} {a : ABIArgInfo AReg} {x : ABIArgInfo XReg}

theorem SplitPair.cases (h : SplitPair a x) : ∃ n v,
    (x.regs = [.xmm n] ∧ a.regs = [.q v, .q (v + 1)]) ∨
    (x.regs = [.xmm n, .xmm (n + 1)] ∧ a.regs = [.q v, .q (v + 1), .q (v + 2)]) ∨
    (x.regs = [.xmm n, .xmm (n + 1)] ∧ a.regs = [.q v, .q (v + 1), .q (v + 2), .q (v + 3)]) := by
  obtain ⟨n, v, elems, h2, h4, -, -, hx, ha⟩ := h
  refine ⟨n, v, ?_⟩
  obtain rfl | rfl | rfl : elems = 2 ∨ elems = 3 ∨ elems = 4 := by omega
  · exact Or.inl ⟨hx, ha⟩
  · exact Or.inr (Or.inl ⟨hx, ha⟩)
  · exact Or.inr (Or.inr ⟨hx, ha⟩)

theorem SplitPair.lt (h : SplitPair a x) : x.teNumOfReg < a.teNumOfReg := by
  obtain ⟨n, v, ⟨hx, ha⟩ | ⟨hx, ha⟩ | ⟨hx, ha⟩⟩ := h.cases <;>
    simp [teNumOfReg, hx, ha]

theorem SplitPair.dyConcat (h : SplitPair a x) (env argSpace : ℕ) :
    dyConcat L env argSpace x.regs a.regs ≠ none := by
  obtain ⟨n, v, ⟨hx, ha⟩ | ⟨hx, ha⟩ | ⟨hx, ha⟩⟩ := h.cases <;>
    simp [Iqemu64.dyConcat, hx, ha, AReg.code, XReg.code, XReg.isXmm] <;> omega

theorem SplitPair.a2xConcat (h : SplitPair a x) : a2xConcat L x.regs a ≠ none := by
  obtain ⟨n, v, ⟨hx, ha⟩ | ⟨hx, ha⟩ | ⟨hx, ha⟩⟩ := h.cases <;>
    simp [Iqemu64.a2xConcat, hx, ha, AReg.code, XReg.code, teGetReg,
      teNumOfReg] <;> omega

theorem SplitPair.x2aConcat (h : SplitPair a x) : x2aConcat L x.regs a ≠ none := by
  obtain ⟨n, v, ⟨hx, ha⟩ | ⟨hx, ha⟩ | ⟨hx, ha⟩⟩ := h.cases <;>
    simp [Iqemu64.x2aConcat, hx, ha, AReg.code, XReg.code, XReg.isXmm, teGetReg,
      teNumOfReg] <;> omega

inductive ArgCase (a : ABIArgInfo AReg) (x : ABIArgInfo XReg) : Prop
  | same {xs : List (XReg × LocInfo)} {as : List (AReg × LocInfo)} (hx : x.loc = .regs xs)
      (hi : a.indirect = false) (ha : a.loc = .regs as) (hn : x.teNumOfReg = a.teNumOfReg)
  | split {xs : List (XReg × LocInfo)} {as : List (AReg × LocInfo)} (hx : x.loc = .regs xs)
      (hi : a.indirect = false) (ha : a.loc = .regs as) (hs : SplitPair a x)
  | fromStack {xs : List (XReg × LocInfo)} {o : ℕ} {info : LocInfo} (hx : x.loc = .regs xs)
      (hi : a.indirect = false) (ha : a.loc = .mem o info)
  | toStack {as : List (AReg × LocInfo)} {o : ℕ} {info : LocInfo} (hx : x.loc = .mem o info)
      (hi : a.indirect = false) (ha : a.loc = .regs as)
  | stack {o o' : ℕ} {info info' : LocInfo} (hx : x.loc = .mem o info) (hi : a.indirect = false)
      (ha : a.loc = .mem o' info') (hsize : a.size = x.size)
  | pointer {as : List (AReg × LocInfo)} {o : ℕ} {info : LocInfo} (hx : x.loc = .mem o info)
      (hi : a.indirect = true) (ha : a.loc = .regs as) (hsize : 2 < x.size)
  | stackPointer {o o' : ℕ} {info info' : LocInfo} (hx : x.loc = .mem o info) (hi : a.indirect = true)
      (ha : a.loc = .mem o' info') (hsize : 2 < x.size)

theorem ArgHandled.case (h : ArgHandled a x) : ArgCase a x := by
  cases hx : x.loc with
  | regs xs =>
    have hmem : x.teIsMem = false := by rw [teIsMem, hx]
    have hi : a.indirect = false := by
      by_contra hi
      rw [h.pointer_mem (by simpa using hi)] at hmem
      cases hmem
    cases ha : a.loc with
    | regs as =>
      rcases h.counts hi (by rw [teIsMem, ha]) hmem with hn | hs
      · exact .same hx hi ha hn
      · exact .split hx hi ha hs
    | mem o info => exact .fromStack hx hi ha
  | mem o info =>
    cases hi : a.indirect with
    | false =>
      cases ha : a.loc with
      | regs as => exact .toStack hx hi ha
      | mem o' info' => exact .stack hx hi ha h.size_eq
    | true =>
      cases ha : a.loc with
      | regs as => exact .pointer hx hi ha (h.pointer_size hi)
      | mem o' info' => exact .stackPointer hx hi ha (h.pointer_size hi)

theorem ArgHandled.dyArg (h : ArgHandled a x) (env argSpace sp : ℕ) (m : Mem) :
    dyArg L env argSpace sp a x m ≠ none := by
  unfold Iqemu64.dyArg
  split
  · simp
  rw [h.direct, if_neg Bool.false_ne_true]
  cases h.case with
  | same hx hi ha hn => simp [hx, hi, ha, hn]
  | split hx hi ha hs => simpa [hx, hi, ha, hs.lt.ne, hs.lt] using hs.dyConcat env argSpace
  | fromStack hx hi ha | toStack hx hi ha => simp [hx, hi, ha]
  | stack hx hi ha hsize | pointer hx hi ha hsize | stackPointer hx hi ha hsize =>
    simp [hx, hi, ha, hsize]

theorem ArgHandled.a2xArg (h : ArgHandled a x) : a2xArg L a x ≠ none := by
  unfold Iqemu64.a2xArg
  split
  · simp
  rw [h.direct, if_neg Bool.false_ne_true]
  cases h.case with
  | same hx hi ha hn => simp [hx, hi, ha, hn]
  | split hx hi ha hs => simpa [hx, hi, ha, hs.lt.ne, hs.lt] using hs.a2xConcat
  | fromStack hx hi ha | toStack hx hi ha => simp [hx, hi, ha]
  | stack hx hi ha hsize | pointer hx hi ha hsize | stackPointer hx hi ha hsize =>
    simp [hx, hi, ha, hsize]

theorem ArgHandled.x2aArg (h : ArgHandled a x) : x2aArg L a x ≠ none := by
  unfold Iqemu64.x2aArg
  split
  · simp
  rw [h.direct, if_neg Bool.false_ne_true]
  cases h.case with
  | same hx hi ha hn => simp [hx, hi, ha, hn]
  | split hx hi ha hs => simpa [hx, hi, ha, hs.lt.ne, hs.lt] using hs.x2aConcat
  | fromStack hx hi ha | toStack hx hi ha => simp [hx, hi, ha]
  | stack hx hi ha hsize | pointer hx hi ha hsize | stackPointer hx hi ha hsize =>
    simp [hx, hi, ha, hsize]

end Args

section Loops
variable {L : EnvLayout} {ps : List Placement}

theorem dyArgs_ne_none (h : ∀ p ∈ ps, ArgHandled p.1 p.2) (env argSpace sp : ℕ) (m : Mem) :
    dyArgs L env argSpace sp (ps.map Prod.fst) (ps.map Prod.snd) m ≠ none := by
  induction ps generalizing m with
  | nil => simp [dyArgs]
  | cons p ps ih =>
    rw [forall_mem_cons] at h
    obtain ⟨m', hm'⟩ := ne_none_iff_exists'.mp (h.1.dyArg (L := L) env argSpace sp m)
    simpa [dyArgs, hm'] using ih h.2 m'

theorem a2xArgs_ne_none (h : ∀ p ∈ ps, ArgHandled p.1 p.2) :
    a2xArgs L (ps.map Prod.fst) (ps.map Prod.snd) ≠ none := by
  induction ps with
  | nil => simp [a2xArgs]
  | cons p ps ih =>
    rw [forall_mem_cons] at h
    obtain ⟨code, hcode⟩ := ne_none_iff_exists'.mp (h.1.a2xArg (L := L))
    simpa [a2xArgs, hcode] using ih h.2

theorem x2aArgs_ne_none (h : ∀ p ∈ ps, ArgHandled p.1 p.2) :
    x2aArgs L (ps.map Prod.fst) (ps.map Prod.snd) ≠ none := by
  induction ps with
  | nil => simp [x2aArgs]
  | cons p ps ih =>
    rw [forall_mem_cons] at h
    obtain ⟨code, hcode⟩ := ne_none_iff_exists'.mp (h.1.x2aArg (L := L))
    simpa [x2aArgs, hcode] using ih h.2

end Loops

section Results
variable {L : EnvLayout} {r : Option FlatType} {a : ABIArgInfo AReg} {x : ABIArgInfo XReg}

/-- Each result has registers or is in memory as the code of either exit expects. -/
theorem RetPlaced.exit_ne_none (h : RetPlaced r a x) :
    (∀ env argSpace sret, dyExitMoves L env argSpace sret a x ≠ none) ∧
      a2xExitResult L a x ≠ none ∧ x2aExitResult L a x ≠ none := by
  cases h with
  | word h =>
    rename_i s p
    cases s <;> cases h <;>
      exact ⟨fun _ _ _ => some_ne_none _, some_ne_none _, some_ne_none _⟩
  | pair hw h16 hxs =>
    rcases hxs with rfl | rfl | rfl | rfl <;>
      exact ⟨fun _ _ _ => some_ne_none _, some_ne_none _, some_ne_none _⟩
  | floats hn | doublesMem hn =>
    rcases hn with rfl | rfl <;>
      exact ⟨fun _ _ _ => some_ne_none _, some_ne_none _, some_ne_none _⟩
  | void | general | float | floats2 | double | doubles2 | mem =>
    exact ⟨fun _ _ _ => some_ne_none _, some_ne_none _, some_ne_none _⟩

theorem RetPlaced.entry_ne_none (h : RetPlaced r a x) :
    (∀ env argSpace sret m, dyRet env argSpace sret a x m ≠ none) ∧ a2xRet a x ≠ none ∧
      x2aRet a x ≠ none := by
  cases h <;> exact ⟨fun _ _ _ _ => some_ne_none _, some_ne_none _, some_ne_none _⟩

end Results

end Iqemu64
