import Iqemu64.X2aWrites

/-!
# The footprint of the host-to-guest entry

Outside the CPU state the entry code should write to its new guest frame only, and among the general
registers it should change the argument registers, the stack pointer and, for a result in memory,
`x8`. Both hold for a signature exactly when none of its arguments that are reached, that is, with no
fault before it, leaves its slot in one of the two ways of `X2aWrite`.
-/

namespace Iqemu64
open ByteMemory X64 StepChain List Option Function Signature

section Statements
variable (L : EnvLayout) (aaInfo : ABIFnInfo AReg) (xxInfo : ABIFnInfo XReg) (s : State)
  (E : BridgeExternals)

/-- No argument before number `i` makes the code fault. -/
def X2aReaches (i : ℕ) : Prop :=
  ∀ j < i, ∀ a x, aaInfo.ainfo[j]? = some a → xxInfo.ainfo[j]? = some x → VectorsAligned a x

/-- All bytes that the emitted code writes outside the CPU state lie between the new and the old guest
stack pointer. -/
def X2aFrameOnly : Prop :=
  ∃ code, abiX2aEntryTranslation L aaInfo xxInfo = some code ∧ ∀ b, Written E code s b →
    ¬ CpuState L (x2aEnv s) b → x2aLowered aaInfo s ≤ b ∧ b < x2aSp s

def X2aAssigns (n : ℕ) : Prop :=
  n = 31 ∨ (n = 8 ∧ xxInfo.rinfo.indirect = true ∧ aaInfo.rinfo.indirect = true) ∨
    ∃ a ∈ aaInfo.ainfo, .x n ∈ a.regs

/-- In every state that the emitted code passes through, the other general registers are as they were,
and if both sides return through memory then `x8` is the caller's address in the end. -/
def X2aKeepsXregs : Prop :=
  ∃ code, abiX2aEntryTranslation L aaInfo xxInfo = some code ∧
    (∀ before after t, code = before ++ after → run E before s = some t → ∀ n < 32,
      ¬ X2aAssigns aaInfo xxInfo n → ∀ b, XRegCell (x2aEnv s) n b → t.mem b = s.mem b) ∧
    (xxInfo.rinfo.indirect = true → aaInfo.rinfo.indirect = true → ∀ t, run E code s = some t →
      t.mem.loadWord (x2aEnv s + 8 * 8) 8 = s.mem.loadWord (x2aCtx s + x64Enum2Offset .rdi) 8)

end Statements

section Reached
variable {L : EnvLayout} {σ : Signature} {s : State}

theorem Signature.piecesAligned_iff {p : Placement} (hp : p ∈ σ.places) :
    PiecesAligned L p.1 p.2 ↔ VectorsAligned p.1 p.2 := by
  obtain ⟨c, c', hlay⟩ := σ.laid_of_mem hp
  obtain ⟨t, al, -, ha, hx, -⟩ := hlay.place
  exact Iqemu64.piecesAligned_iff ha hx

/-- Arguments that are reached, by their index and by the arguments before them. -/
theorem Signature.forall_reached (σ : Signature) {Q : ABIArgInfo AReg → ABIArgInfo XReg → Prop} :
    (∀ (i : ℕ) a x, σ.aaInfo.ainfo[i]? = some a → σ.xxInfo.ainfo[i]? = some x →
        X2aReaches σ.aaInfo σ.xxInfo i → Q a x) ↔
      ∀ before p after, σ.places = before ++ p :: after →
        (∀ q ∈ before, VectorsAligned q.1 q.2) → Q p.1 p.2 := by
  constructor
  · intro h before p after heq hbefore
    refine h before.length p.1 p.2 ?_ ?_ fun j hj a x ha hx => ?_
    · simp [aaInfo, heq]
    · simp [xxInfo, heq]
    · have hmem : before[j]? = some (a, x) := by
        simp only [aaInfo, xxInfo, heq, getElem?_map,
          getElem?_append_left hj, map_eq_some_iff] at ha hx
        obtain ⟨q, hq, rfl⟩ := ha
        obtain ⟨q', hq', rfl⟩ := hx
        rw [hq, Option.some.inj (hq.symm.trans hq')]
      exact hbefore _ (mem_of_getElem? hmem)
  · intro h i a x ha hx hreach
    simp only [aaInfo, xxInfo, getElem?_map, map_eq_some_iff] at ha hx
    obtain ⟨q, hq, rfl⟩ := ha
    obtain ⟨q', hq', rfl⟩ := hx
    obtain rfl := Option.some.inj (hq.symm.trans hq')
    obtain ⟨hi, rfl⟩ := List.getElem?_eq_some_iff.mp hq
    refine h (σ.places.take i) _ (σ.places.drop (i + 1)) (by simp) fun p hp => ?_
    obtain ⟨j, hj⟩ := mem_iff_getElem?.mp hp
    have hlt : j < i := by
      by_contra hge
      rw [getElem?_eq_none (by simp; omega)] at hj
      cases hj
    rw [getElem?_take_of_lt hlt] at hj
    exact hreach j hlt p.1 p.2 (by simp [aaInfo, hj]) (by simp [xxInfo, hj])

end Reached

section Entry
variable {L : EnvLayout} {σ : Signature} {s : State}

theorem x2aStack_written {E : BridgeExternals} {bytes b : ℕ} (hw : Written E (x2aStack bytes) s b) :
    XRegCell (x2aEnv s) 31 b := by
  by_contra hnot
  have hrax : Gpr.rax ∉ [Gpr.rdi] := by decide
  have hr10 : Gpr.r10 ∉ [Gpr.rdi] := by decide
  have hr11 : Gpr.r11 ∉ [Gpr.rdi] := by decide
  refine not_written_of_avoids (v := s.gpr) (K := [.rdi]) (P := fun b => ¬ XRegCell (x2aEnv s) 31 b)
    ?_ (fun _ _ => rfl) hnot hw
  simp only [x2aStack, forall_mem_cons, not_mem_nil, false_imp_iff, implies_true, and_true]
  refine ⟨hrax, hrax, ⟨mem_singleton_self _, fun k hk => not_not.mpr ?_⟩, hr10, hr11, hr11⟩
  unfold XRegCell x2aEnv spOffset
  omega

/-- The code for a result in memory on both sides, and no code otherwise. -/
theorem x2aRet_eq {ret : BridgeCode} (hret : x2aRet σ.aaInfo.rinfo σ.xxInfo.rinfo = some ret) :
    (σ.xxInfo.rinfo.indirect = true ∧ σ.aaInfo.rinfo.indirect = true ∧
        ret = [.ld .rax .rsi (x64Enum2Offset .rdi), .st .rax .rdi (8 * 8)]) ∨
      (¬ (σ.xxInfo.rinfo.indirect = true ∧ σ.aaInfo.rinfo.indirect = true) ∧ ret = []) := by
  have hreg : σ.xxInfo.rinfo.indirect = true → σ.xxInfo.rinfo.teGetReg 0 = some .rdi := by
    change (xxRetInfo σ.ret.xxRet).indirect = true → (xxRetInfo σ.ret.xxRet).teGetReg 0 = _
    cases σ.ret.xxRet <;> first | exact fun _ => rfl | exact fun h => absurd h (by decide)
  unfold x2aRet at hret
  split at hret
  · rename_i hx ha
    rw [hreg hx] at hret
    exact Or.inl ⟨hx, ha, (Option.some.inj hret).symm⟩
  · rename_i hne
    exact Or.inr ⟨fun h => hne h.1 h.2, (Option.some.inj hret).symm⟩

/-- The code before the arguments stores the guest stack pointer and, for a result in memory, `x8`. -/
theorem x2aStart_written {E : BridgeExternals} {ret : BridgeCode}
    (hret : x2aRet σ.aaInfo.rinfo σ.xxInfo.rinfo = some ret) {b : ℕ}
    (hw : Written E (ret ++ x2aStack σ.aaInfo.bytes) s b) :
    ∃ n < 32, X2aAssigns σ.aaInfo σ.xxInfo n ∧ XRegCell (x2aEnv s) n b := by
  rcases x2aRet_eq hret with ⟨hx, ha, rfl⟩ | ⟨-, rfl⟩
  · rcases written_append.mp hw with hw | ⟨t, ht, hw⟩
    · simp only [Written, Insn.step, Insn.Writes, Option.some.injEq, exists_eq_left', false_or,
        or_false, State.ea, State.setGpr_gpr, reduceCtorEq, if_false] at hw
      exact ⟨8, by norm_num, Or.inr (Or.inl ⟨rfl, hx, ha⟩), hw⟩
    · refine ⟨31, by norm_num, Or.inl rfl, ?_⟩
      simp only [run_cons, run_nil, Insn.step, bind_some, Option.some.injEq] at ht
      have henv : x2aEnv t = x2aEnv s := by
        rw [← ht]
        rfl
      rw [← henv]
      exact x2aStack_written hw
  · exact ⟨31, by norm_num, Or.inl rfl, x2aStack_written hw⟩

/-- The caller's address for the result is in `x8` when the arguments are translated. -/
theorem x2aStart_x8 {E : BridgeExternals} {ret : BridgeCode}
    (hret : x2aRet σ.aaInfo.rinfo σ.xxInfo.rinfo = some ret) (hx : σ.xxInfo.rinfo.indirect = true)
    (ha : σ.aaInfo.rinfo.indirect = true) {t : State}
    (hrun : run E (ret ++ x2aStack σ.aaInfo.bytes) s = some t) :
    t.mem.loadWord (x2aEnv s + 8 * 8) 8 = s.mem.loadWord (x2aCtx s + x64Enum2Offset .rdi) 8 := by
  rcases x2aRet_eq hret with ⟨-, -, rfl⟩ | ⟨hne, -⟩
  swap
  · exact absurd ⟨hx, ha⟩ hne
  rw [run_append] at hrun
  obtain ⟨u, hu, hrun⟩ := bind_eq_some_iff.mp hrun
  simp only [run_cons, run_nil, Insn.step, bind_some, Option.some.injEq] at hu
  have henv : x2aEnv u = x2aEnv s := by
    rw [← hu]
    rfl
  have hmem : u.mem = s.mem.storeWord (x2aEnv s + 8 * 8) 8
      (s.mem.loadWord (x2aCtx s + x64Enum2Offset .rdi) 8) := by
    rw [← hu]
    simp only [State.setMem_mem, State.setGpr_mem, State.ea, State.setGpr_gpr, reduceCtorEq, if_false,
      if_true, toNat_ofNat_loadWord _ _ _ (le_refl 8)]
    rfl
  have hkept : t.mem.loadWord (x2aEnv s + 8 * 8) 8 = u.mem.loadWord (x2aEnv s + 8 * 8) 8 := by
    refine Mem.loadWord_congr _ _ _ _ fun k hk =>
      mem_of_not_written (append_nil _).symm hrun fun hw => ?_
    have := x2aStack_written hw
    unfold XRegCell at this
    omega
  have hlt : s.mem.loadWord (x2aCtx s + x64Enum2Offset .rdi) 8 < 2 ^ 64 := Mem.loadWord_lt _ _ 8
  rw [hkept, hmem, Mem.loadWord_storeWord, Nat.mod_eq_of_lt (by omega)]

/-- The emitted code, with the state and the layout at which its argument loop starts. -/
theorem X2aReady.exists_code (h : X2aReady L σ.aaInfo σ.xxInfo s) (E : BridgeExternals) :
    ∃ start args s₁ c c', abiX2aEntryTranslation L σ.aaInfo σ.xxInfo = some (start ++ args) ∧
      (∀ b, Written E start s b →
        ∃ n < 32, X2aAssigns σ.aaInfo σ.xxInfo n ∧ XRegCell (x2aEnv s) n b) ∧
      run E start s = some s₁ ∧
      (σ.xxInfo.rinfo.indirect = true → σ.aaInfo.rinfo.indirect = true →
        s₁.mem.loadWord (x2aEnv s + 8 * 8) 8 = s.mem.loadWord (x2aCtx s + x64Enum2Offset .rdi) 8) ∧
      X2aInv h.site s₁.mem s₁ ∧ (∀ a, h.site.Source a → s₁.mem a = s.mem a) ∧
      Chain (x2aSteps E h.site s₁.mem).Lay c σ.places c' ∧
      x2aArgs L (σ.places.map Prod.fst) (σ.places.map Prod.snd) = some args := by
  obtain ⟨ret, hret, s₁, hrun, hinv, -, hsrc⟩ := h.run_start E
  have hchain : Chain (x2aSteps E h.site s₁.mem).Lay ({}, σ.xxStart) σ.places
      (aaFinal σ.nfixed σ.args 0 {}, xxFinal σ.args σ.xxStart) := σ.chain (fun _ _ => trivial) le_rfl
  obtain ⟨args, hargs, -⟩ := x2aArgs_eq_run hchain hinv
  refine ⟨ret ++ x2aStack σ.aaInfo.bytes, args, s₁, _, _, ?_, fun b => x2aStart_written hret, hrun,
    fun hx ha => x2aStart_x8 hret hx ha hrun, hinv, hsrc, hchain, hargs⟩
  unfold abiX2aEntryTranslation
  rw [hret, bind_some]
  change (x2aArgs L (σ.places.map Prod.fst) (σ.places.map Prod.snd)).map _ = _
  rw [hargs, map_some, x2aBlocks_places, nil_append]

theorem XRegCell.cpuState {env n b : ℕ} (hn : n < 32) (h : XRegCell env n b) : CpuState L env b := by
  have hz := L.zregs_ge
  unfold XRegCell at h
  unfold CpuState EnvLayout.size
  omega

/-- The code up to an argument that is reached runs, and the argument's sources are as they were. -/
theorem X2aReady.reach (h : X2aReady L σ.aaInfo σ.xxInfo s) (E : BridgeExternals)
    {before after : List Placement} {p : Placement} (heq : σ.places = before ++ p :: after)
    (hbefore : ∀ q ∈ before, VectorsAligned q.1 q.2) :
    ∃ pre cp post t c₁ c₂ m₁,
      abiX2aEntryTranslation L σ.aaInfo σ.xxInfo = some (pre ++ (cp ++ post)) ∧
      run E pre s = some t ∧ Laid (fun _ => True) h.site.aaBytes h.site.xxBytes c₁ p c₂ ∧
      X2aInv h.site m₁ t ∧ x2aArg L p.1 p.2 = some cp ∧
      ∀ a, h.site.Source a → t.mem a = s.mem a := by
  obtain ⟨start, args, s₁, c, c', hcode, -, hrun, -, hinv, hsrc, hchain, hargs⟩ := h.exists_code E
  have haligned : ∀ q ∈ before, PiecesAligned L q.1 q.2 := fun q hq =>
    (σ.piecesAligned_iff (by simp [heq, hq])).mpr (hbefore q hq)
  rw [heq] at hchain hargs
  obtain ⟨cs, cp, rest, c₁, c₂, t, rfl, ht, hlay, hinvt, hcp⟩ :=
    x2aArgs_reach hchain hinv haligned hargs
  refine ⟨start ++ cs, cp, rest, t, c₁, c₂, s₁.mem, ?_, (run_append_some E hrun).trans ht, hlay, hinvt,
    hcp, fun a ha => (hinvt.mem a ha.not_own).trans (hsrc a ha)⟩
  rw [hcode, append_assoc]

theorem X2aReady.sp_eq (h : X2aReady L σ.aaInfo σ.xxInfo s) :
    x2aSp s = x2aLowered σ.aaInfo s + ffiAlign σ.aaInfo.bytes 16 := by
  have := h.room
  unfold x2aLowered
  omega

theorem X2aReady.frameOnly_iff (h : X2aReady L σ.aaInfo σ.xxInfo s) (E : BridgeExternals) :
    X2aFrameOnly L σ.aaInfo σ.xxInfo s E ↔
      ∀ before p after, σ.places = before ++ p :: after →
        (∀ q ∈ before, VectorsAligned q.1 q.2) → StaysInFrame σ.aaInfo.bytes p.1 p.2 := by
  have hsp := h.sp_eq
  have hF := ffiAlign_sixteen σ.aaInfo.bytes
  constructor
  · rintro ⟨code, hcode', hall⟩ before p after heq hbefore
    by_contra hout
    obtain ⟨pre, cp, post, t, c₁, c₂, m₁, hcode, hrun, hlay, hinv, hcp, -⟩ := h.reach E heq hbefore
    obtain rfl := Option.some.inj (hcode.symm.trans hcode')
    have hover : Written E (pre ++ (cp ++ post)) s
        (x2aLowered σ.aaInfo s + ffiAlign σ.aaInfo.bytes 16) := by
      refine written_append.mpr (Or.inr ⟨t, hrun, written_append.mpr (Or.inl ?_)⟩)
      exact x2aArg_overruns hlay hinv hcp hout
    have := hall _ hover (h.area_apart _ (by omega))
    omega
  · intro hstays
    obtain ⟨start, args, s₁, c, c', hcode, hstart, hrun, -, hinv, -, hchain, hargs⟩ :=
      h.exists_code E
    refine ⟨_, hcode, fun b hw hb => ?_⟩
    rcases written_append.mp hw with hw | ⟨t, ht, hw⟩
    · obtain ⟨n, hn, -, hcell⟩ := hstart b hw
      exact absurd (hcell.cpuState hn) hb
    obtain rfl := Option.some.inj (hrun.symm.trans ht)
    obtain ⟨before, p, after, heq, hbefore, hwrite⟩ := x2aArgs_written hchain hinv hargs hw
    have hp := hstays before p after heq fun q hq =>
      (σ.piecesAligned_iff (by simp [heq, hq])).mp (hbefore q hq)
    cases hwrite with
    | vector hvec => exact absurd ⟨(Nat.le_add_right _ _).trans hvec.1, hvec.2⟩ hb
    | register _ hn hcell | spill _ hn hcell => exact absurd (hcell.cpuState (by omega)) hb
    | slot hslot hframe =>
      refine ⟨hslot.1, ?_⟩
      rw [hsp]
      exact hframe.resolve_right (not_not.mpr hp)

/-- Registers that are not assigned stay as they are if no spill reaches them. -/
theorem X2aReady.keepsXregs (h : X2aReady L σ.aaInfo σ.xxInfo s) (E : BridgeExternals)
    (hspill : ∀ before p after, σ.places = before ++ p :: after →
      (∀ q ∈ before, VectorsAligned q.1 q.2) → ∀ n, x2aSpill p.1 p.2 = some n →
        ∃ a ∈ σ.aaInfo.ainfo, .x n ∈ a.regs) : X2aKeepsXregs L σ.aaInfo σ.xxInfo s E := by
  obtain ⟨start, args, s₁, c, c', hcode, hstart, hrun, hx8, hinv, -, hchain, hargs⟩ := h.exists_code E
  refine ⟨_, hcode, fun pre post t heq ht n hn hnot b hcell => ?_, fun hx ha t ht => ?_⟩
  · refine mem_of_not_written heq ht fun hw => hnot ?_
    rcases written_append.mp hw with hw | ⟨t, ht, hw⟩
    · obtain ⟨m, -, hm, hcell'⟩ := hstart b hw
      obtain rfl : m = n := by
        unfold XRegCell at hcell hcell'
        omega
      exact hm
    obtain rfl := Option.some.inj (hrun.symm.trans ht)
    obtain ⟨before, p, after, heq, hbefore, hwrite⟩ := x2aArgs_written hchain hinv hargs hw
    have hsame : ∀ {m}, XRegCell (x2aEnv s) m b → m = n := by
      intro m hcell'
      unfold XRegCell at hcell hcell'
      omega
    have hstate := hcell.cpuState (L := L) hn
    cases hwrite with
    | vector hvec =>
      have hz := L.zregs_ge
      have hlo : x2aEnv s + L.zregs ≤ b := hvec.1
      unfold XRegCell at hcell
      omega
    | register hm _ hcell' =>
      obtain rfl := hsame hcell'
      exact Or.inr (Or.inr ⟨p.1, mem_map_of_mem (by simp [heq]), hm⟩)
    | spill hm _ hcell' =>
      obtain rfl := hsame hcell'
      exact Or.inr (Or.inr (hspill before p after heq (fun q hq =>
        (σ.piecesAligned_iff (by simp [heq, hq])).mp (hbefore q hq)) _ hm))
    | slot hslot _ =>
      obtain ⟨o, rfl⟩ := Nat.exists_eq_add_of_le hslot.1
      have hlt : h.site.sp + o < h.site.sp + σ.aaInfo.bytes + 16 := hslot.2
      exact absurd hstate (h.area_apart o (by omega))
  · rw [run_append, hrun, bind_some] at ht
    obtain ⟨args', hargs', hloop⟩ := x2aArgs_eq_run hchain hinv
    obtain rfl := Option.some.inj (hargs.symm.trans hargs')
    rw [hloop] at ht
    rw [← hx8 hx ha]
    refine Mem.loadWord_congr _ _ _ _ fun k hk => ?_
    rw [Nat.add_assoc]
    exact (Steps.run_keeps _ hchain hinv ht).1.mem _ (X2aSite.xreg_not_own (by omega) (by omega))

theorem x2aSpill_xmm {a : ABIArgInfo AReg} {x : ABIArgInfo XReg} {n : ℕ}
    (h : x2aSpill a x = some n) : ∃ v, x.teGetReg 1 = some (.xmm v) := by
  unfold x2aSpill at h
  split at h
  · rename_i r r' _ _ hx _
    simp only [ite_none_right_eq_some] at h
    cases r'
    case xmm v => exact ⟨v, by rw [ABIArgInfo.teGetReg, hx]; rfl⟩
    all_goals exact absurd h.1.2.1 (by decide)
  · cases h

/-- A spill into a register that no argument has: with one byte of the saved vector register changed,
the register changes too. -/
theorem X2aReady.clobbers (h : X2aReady L σ.aaInfo σ.xxInfo s) (E : BridgeExternals)
    {before after : List Placement} {p : Placement} (heq : σ.places = before ++ p :: after)
    (hbefore : ∀ q ∈ before, VectorsAligned q.1 q.2) {n v : ℕ} (hspill : x2aSpill p.1 p.2 = some n)
    (hreg : p.2.teGetReg 1 = some (.xmm v)) (hnot : ¬ ∃ a ∈ σ.aaInfo.ainfo, .x n ∈ a.regs) {m : Mem}
    (hm : m = update s.mem (x2aCtx s + (x64Enum2Offset (.xmm v) + 8))
      (s.mem (x2aEnv s + 8 * n) + 1)) :
    X2aReady L σ.aaInfo σ.xxInfo (s.setMem m) ∧
      ¬ X2aKeepsXregs L σ.aaInfo σ.xxInfo (s.setMem m) E := by
  obtain ⟨_, cp, _, t, c₁, c₂, _, -, -, hlay, hinv, hcp, -⟩ := h.reach E heq hbefore
  obtain ⟨hn, w, hw, hreg', -⟩ := x2aArg_spills (E := E) hlay hinv hcp hspill
  obtain rfl : v = w := by simpa using hreg.symm.trans hreg'
  let src := x2aCtx s + (x64Enum2Offset (.xmm v) + 8)
  have hother : ∀ a, src ≠ a → m a = s.mem a := by
    intro a ha
    rw [hm]
    exact update_of_ne ha.symm _ _
  have hoff : x64Enum2Offset (.xmm v) + 8 < 256 ∧ 128 ≤ x64Enum2Offset (.xmm v) := by
    simp only [x64Enum2Offset]
    omega
  -- the changed byte is neither in the CPU state nor part of the saved stack pointer
  have hstate : ∀ n k, n < 32 → k < 8 → src ≠ x2aEnv s + 8 * n + k := by
    intro n k hn hk heq
    refine (h.ctx_apart _ hoff.1).1 ?_
    change CpuState L (x2aEnv s) src
    rw [heq]
    exact XRegCell.cpuState hn ⟨by omega, by omega⟩
  obtain ⟨hready, -, -⟩ := h.setMem (m := m) (fun k hk => hother _ (hstate 31 k (by norm_num) hk))
    fun k hk => hother _ (by simp only [src, ctxRspOffset]; omega)
  refine ⟨hready, ?_⟩
  rintro ⟨code, hcode', hkeeps, -⟩
  obtain ⟨pre, cp', post, t', c₁', c₂', _, hcode, hrun, hlay', hinv', hcp', hsource⟩ :=
    hready.reach E heq hbefore
  obtain rfl := Option.some.inj (hcode.symm.trans hcode')
  obtain ⟨-, v', -, hreg', s', hs', hval⟩ := x2aArg_spills (E := E) hlay' hinv' hcp' hspill
  obtain rfl : v = v' := by simpa using hreg.symm.trans hreg'
  have hassign : ¬ X2aAssigns σ.aaInfo σ.xxInfo n := by
    rintro (rfl | ⟨rfl, -⟩ | hmem)
    · omega
    · omega
    · exact hnot hmem
  have hsame := hkeeps (pre ++ cp') post s' (append_assoc _ _ _).symm
    ((run_append_some E hrun).trans hs') n (by omega) hassign (x2aEnv s + 8 * n)
    ⟨le_rfl, Nat.lt_add_of_pos_right (by norm_num)⟩
  have hread : s'.mem (x2aEnv s + 8 * n) = m src := by
    refine hval.trans ((congrArg _ (Nat.add_assoc _ _ _)).trans (hsource _ ?_))
    exact Or.inl ⟨_, hoff.1, rfl⟩
  have hold : m (x2aEnv s + 8 * n) = s.mem (x2aEnv s + 8 * n) :=
    hother _ (hstate n 0 (by omega) (by norm_num))
  have hnew : m src = s.mem (x2aEnv s + 8 * n) + 1 := by
    rw [hm]
    exact update_self _ _ _
  rw [hread, hnew] at hsame
  change _ = m (x2aEnv s + 8 * n) at hsame
  rw [hold] at hsame
  grind

end Entry

/-- Eight structs that AArch64 passes by address use up its registers, so that it passes a 64-bit and
two 32-bit integers on the stack, while x86-64 has them in registers. -/
def crowdedSignature : Signature where
  ret := .void
  args := replicate 8 (.struct .sint64 [.sint64, .sint64]) ++
    [.scalar .sint64, .scalar .sint32, .scalar .sint32]
  nfixed := 0
  nfixed_le := Nat.zero_le _

/-- A result in memory, an integer, a struct of an integer and a double that starts at `x1`, and
another integer. -/
def coveredSignature : Signature where
  ret := (FlatType.struct .sint64 [.sint64, .sint64]).result
  args := [.scalar .sint64, .struct .sint64 [.double], .scalar .sint64]
  nfixed := 0
  nfixed_le := Nat.zero_le _

/-- The struct of `coveredSignature` without an argument after it. -/
def spillSignature : Signature where
  ret := .void
  args := [.scalar .sint64, .struct .sint64 [.double]]
  nfixed := 0
  nfixed_le := Nat.zero_le _

end Iqemu64
