import Iqemu64.X2aDelivery
import Iqemu64.A2xCall

/-!
# The whole host-to-guest entry

The code that `abiX2aEntryTranslation` emits passes on the address for a result in memory, lowers the
guest stack pointer and then runs the argument loop. It delivers all arguments exactly when its wide
stores are aligned and every argument is read from where the host has it.
-/

namespace Iqemu64
open ByteMemory X64 StepChain Option ABIArgInfo State

def x2aHostAddr (ctx stack : ℕ) (x : ABIArgInfo XReg) (k : ℕ) : ℕ :=
  match x.loc with
  | .regs _ => ctx + (x.teGetReg (k / 8)).elim 0 x64Enum2Offset + k % 8
  | .mem offset _ => stack + offset + k

def x2aStrided (a : ABIArgInfo AReg) (x : ABIArgInfo XReg) : Prop :=
  a2xStrided a x ∧ (x.teIsMem = false → a.teIsMem = false → x.teNumOfReg = a.teNumOfReg)

instance (a : ABIArgInfo AReg) (x : ABIArgInfo XReg) : Decidable (x2aStrided a x) :=
  inferInstanceAs (Decidable (_ ∧ _))

section Source
variable {t : FlatType} {al al' : AaAlloc} {xl xl' : XxAlloc} {a : ABIArgInfo AReg}
  {x : ABIArgInfo XReg} {ctx stack : ℕ} {m : Mem}

theorem XxPlaced.hostByte_x2aHostView (hx : XxPlaced t xl x xl') {k : ℕ} (hk : k < t.size) :
    x.hostByte (x2aHostView ctx stack m) k = m (x2aHostAddr ctx stack x k) := by
  cases hx with
  | regs hfits =>
    obtain ⟨r, hr, -⟩ := hfits.teGetReg (show k / 8 < (t.size + 7) / 8 by omega)
    simp only [hostByte, x2aHostAddr, hr, elim_some, x2aHostView]
  | stack => simp only [hostByte, x2aHostAddr, x2aHostView, Nat.add_assoc]

theorem x64Enum2Offset_mod (r : XReg) : x64Enum2Offset r % 8 = 0 := by
  cases r
  case xmm n =>
    simp only [x64Enum2Offset]
    omega
  all_goals rfl

theorem x2aStrided_toStack_iff (ctx stack : ℕ) (hfits : t.XxFits xl) (offset : ℕ) :
    a2xStrided (aaOnStack offset t.size) (t.xxInRegs xl) ↔
      ∀ k < t.size, x2aSource ctx stack (aaOnStack offset t.size) (t.xxInRegs xl) k =
        x2aHostAddr ctx stack (t.xxInRegs xl) k := by
  have h16 := hfits.size
  have hcount := teNumOfReg_xxInRegs hfits
  simp only [a2xStrided, x2aSource, x2aHostAddr, hcount]
  by_cases h8 : t.size ≤ 8
  · refine iff_of_true (fun _ _ _ => Or.inl (by omega)) fun k hk => ?_
    rw [if_pos (Or.inl (by omega)), Nat.div_eq_of_lt (by omega), Nat.mod_eq_of_lt (by omega)]
  obtain ⟨r, hr, -⟩ := hfits.teGetReg (show 0 < (t.size + 7) / 8 by omega)
  obtain ⟨r', hr', -⟩ := hfits.teGetReg (show 1 < (t.size + 7) / 8 by omega)
  simp only [hr, hr', mem_def, Option.some.injEq, forall_eq', any_some,
    elim_some, show (t.size + 7) / 8 = 2 by omega, show ¬ 2 ≤ 1 by omega, false_or]
  constructor
  · intro h k hk
    have hstride : (if r.isXmm then t.size / 2 else 8) = 8 := by
      split_ifs with hx
      · have := h hx
        omega
      · rfl
    rw [hstride]
    split_ifs with hlt
    · rw [Nat.div_eq_of_lt hlt, Nat.mod_eq_of_lt hlt, hr]
      rfl
    · rw [show k / 8 = 1 by omega, show k % 8 = k - 8 by omega, hr']
      rfl
  · intro h hx
    by_contra hne
    have hbad := h (t.size / 2) (by omega)
    rw [if_pos hx, if_neg (lt_irrefl _), Nat.div_eq_of_lt (show t.size / 2 < 8 by omega),
      Nat.mod_eq_of_lt (show t.size / 2 < 8 by omega), hr, elim_some] at hbad
    have := x64Enum2Offset_mod r
    have := x64Enum2Offset_mod r'
    omega

theorem x2aSource_fromStack (a : ABIArgInfo AReg) {rs : List (AReg × LocInfo)}
    (ha : a.loc = .regs rs) (k : ℕ) :
    x2aSource ctx stack a (t.xxOnStack xl) k = x2aHostAddr ctx stack (t.xxOnStack xl) k ↔
      8 * (k / a.regStride) + k % a.regStride = k := by
  simp only [x2aSource, x2aHostAddr, ha]
  omega

/-- The code reads an argument from its place exactly when the strides fit. -/
theorem x2aStrided_iff (ha : AaPlaced t al a al') (hx : XxPlaced t xl x xl') :
    x2aStrided a x ↔ ∀ k < t.size, x2aSource ctx stack a x k = x2aHostAddr ctx stack x k := by
  have hpos := t.size_pos
  cases ha with
  | vector hv hfit =>
    rename_i elems width
    obtain ⟨h1, h4, hwidth, hsize⟩ := FlatType.vector_spec hv
    cases hx with
    | regs hfits =>
      simp only [x2aStrided, a2xStrided, true_and, teIsMem, true_imp_iff,
        teNumOfReg_aaInRegs, x2aSource, x2aHostAddr]
      by_cases hcount : (t.xxInRegs xl).teNumOfReg = elems
      · simp only [hcount, if_true, implies_true]
      · refine iff_of_false hcount fun h => ?_
        rw [teNumOfReg_xxInRegs hfits] at hcount
        have := h 4 (by rcases hwidth with rfl | rfl <;> omega)
        rw [if_neg (by rw [teNumOfReg_xxInRegs hfits]; exact hcount)] at this
        omega
    | stack =>
      simp only [x2aSource_fromStack (aaInRegs .q al.ssecount elems t.size) rfl]
      simp only [x2aStrided, a2xStrided, teIsMem, teNumOfReg_aaInRegs, Bool.false_eq_true,
        false_or, Bool.true_eq_false, false_imp_iff, and_true]
      rw [hsize, regStride_vector h1]
      rcases hwidth with rfl | rfl
      · constructor
        · intro h k hk
          omega
        · intro h
          have := h 4
          omega
      · exact iff_of_true (by omega) fun k _ => by omega
  | general hv h16 hfit =>
    cases hx with
    | regs hfits =>
      simp only [x2aStrided, a2xStrided, teNumOfReg_aaInRegs, teNumOfReg_xxInRegs hfits, x2aSource,
        x2aHostAddr, implies_true, and_self, if_true]
    | stack =>
      simp only [x2aSource_fromStack (aaInRegs .x al.gprcount ((t.size + 7) / 8) t.size) rfl]
      simp only [x2aStrided, a2xStrided, teIsMem, teNumOfReg_aaInRegs, Bool.false_eq_true,
        false_or, Bool.true_eq_false, false_imp_iff, and_true]
      rw [regStride_general (by omega)]
      exact iff_of_true (by omega) fun k _ => by omega
  | pointer hv h16 hfit =>
    cases hx with
    | regs hfits => exact absurd hfits.size (by omega)
    | stack =>
      simp only [x2aSource_fromStack { aaInRegs .x al.gprcount 1 t.size with indirect := true } rfl]
      refine iff_of_true ⟨Or.inl rfl, fun h => by cases h⟩ fun k _ => ?_
      change 8 * (k / 8) + k % 8 = k
      omega
  | stackVector hv | stackGeneral hv h16 =>
    cases hx with
    | regs hfits =>
      rw [x2aStrided, x2aStrided_toStack_iff ctx stack hfits]
      simp [teIsMem]
    | stack => simp [x2aStrided, a2xStrided, x2aSource, x2aHostAddr, teIsMem]
  | stackPointer hv h16 =>
    cases hx with
    | regs hfits => exact absurd hfits.size (by omega)
    | stack => simp [x2aStrided, a2xStrided, x2aSource, x2aHostAddr, teIsMem]

end Source

section Ready
variable (L : EnvLayout) (aaInfo : ABIFnInfo AReg) (xxInfo : ABIFnInfo XReg) (s : State)

def x2aEnv : ℕ := (s.gpr .rdi).toNat

def x2aCtx : ℕ := (s.gpr .rsi).toNat

def x2aSp : ℕ := s.mem.loadWord (x2aEnv s + spOffset) 8

def x2aStackArgs : ℕ := s.mem.loadWord (x2aCtx s + ctxRspOffset) 8 + 8

def x2aLowered : ℕ := x2aSp s - ffiAlign aaInfo.bytes 16

/-- A host call is about to be translated: everything is aligned, the guest stack has room, and the
CPU state, the new guest frame, the saved registers and the host's stack arguments do not overlap. -/
structure X2aReady : Prop where
  env_aligned : x2aEnv s % 16 = 0
  ctx_aligned : x2aCtx s % 16 = 0
  sp_aligned : x2aSp s % 16 = 0
  room : ffiAlign aaInfo.bytes 16 ≤ x2aSp s
  top : x2aStackArgs s + xxInfo.bytes < 2 ^ 64
  area_apart : ∀ o < aaInfo.bytes + 16,
    ¬ (x2aEnv s ≤ x2aLowered aaInfo s + o ∧ x2aLowered aaInfo s + o < x2aEnv s + L.size)
  ctx_apart : ∀ o < 256, ¬ (x2aEnv s ≤ x2aCtx s + o ∧ x2aCtx s + o < x2aEnv s + L.size) ∧
    ¬ (x2aLowered aaInfo s ≤ x2aCtx s + o ∧
      x2aCtx s + o < x2aLowered aaInfo s + aaInfo.bytes + 16)
  stack_apart : ∀ o < xxInfo.bytes + 16,
    ¬ (x2aEnv s ≤ x2aStackArgs s + o ∧ x2aStackArgs s + o < x2aEnv s + L.size) ∧
    ¬ (x2aLowered aaInfo s ≤ x2aStackArgs s + o ∧
      x2aStackArgs s + o < x2aLowered aaInfo s + aaInfo.bytes + 16) ∧
    ¬ (x2aCtx s ≤ x2aStackArgs s + o ∧ x2aStackArgs s + o < x2aCtx s + 256)

/-- The emitted code runs to its end, lowers the guest stack pointer, and every guest place holds its
argument, or a pointer to it. -/
def X2aDelivers (E : BridgeExternals) : Prop :=
  ∃ code s', abiX2aEntryTranslation L aaInfo xxInfo = some code ∧ run E code s = some s' ∧
    s'.mem.loadWord (x2aEnv s + spOffset) 8 = x2aLowered aaInfo s ∧
    ∀ (i : ℕ) a x, aaInfo.ainfo[i]? = some a → xxInfo.ainfo[i]? = some x → ∀ k < a.size,
      a.guestByte L (x2aEnv s) (x2aLowered aaInfo s) s'.mem k =
        x.hostByte (x2aHostView (x2aCtx s) (x2aStackArgs s) s.mem) k

end Ready

section Entry
variable {L : EnvLayout} {σ : Signature} {s : State}

theorem X2aReady.setMem (h : X2aReady L σ.aaInfo σ.xxInfo s) {m : Mem}
    (hsp : ∀ k < 8, m (x2aEnv s + spOffset + k) = s.mem (x2aEnv s + spOffset + k))
    (hrsp : ∀ k < 8, m (x2aCtx s + ctxRspOffset + k) = s.mem (x2aCtx s + ctxRspOffset + k)) :
    X2aReady L σ.aaInfo σ.xxInfo (s.setMem m) ∧
      x2aLowered σ.aaInfo (s.setMem m) = x2aLowered σ.aaInfo s ∧
      x2aStackArgs (s.setMem m) = x2aStackArgs s := by
  have hsp' : x2aSp (s.setMem m) = x2aSp s := Mem.loadWord_congr _ _ _ _ hsp
  have hlow : x2aLowered σ.aaInfo (s.setMem m) = x2aLowered σ.aaInfo s := by
    rw [x2aLowered, x2aLowered, hsp']
  have hstack : x2aStackArgs (s.setMem m) = x2aStackArgs s :=
    congrArg (· + 8) (Mem.loadWord_congr _ _ _ _ hrsp)
  refine ⟨⟨h.env_aligned, h.ctx_aligned, ?_, ?_, ?_, ?_, ?_, ?_⟩, hlow, hstack⟩
  · rw [hsp']
    exact h.sp_aligned
  · rw [hsp']
    exact h.room
  · rw [hstack]
    exact h.top
  · rw [hlow]
    exact h.area_apart
  · rw [hlow]
    exact h.ctx_apart
  · rw [hlow, hstack]
    exact h.stack_apart

def X2aReady.site (h : X2aReady L σ.aaInfo σ.xxInfo s) : X2aSite L where
  env := x2aEnv s
  ctx := x2aCtx s
  sp := x2aLowered σ.aaInfo s
  stack := x2aStackArgs s
  aaBytes := σ.aaInfo.bytes
  xxBytes := σ.xxInfo.bytes
  env_aligned := h.env_aligned
  ctx_aligned := h.ctx_aligned
  sp_aligned := by
    have := h.sp_aligned
    have := h.room
    have := ffiAlign_sixteen σ.aaInfo.bytes
    unfold x2aLowered
    omega
  sp_top := by
    have := h.room
    have := ffiAlign_sixteen σ.aaInfo.bytes
    have : x2aSp s < 2 ^ 64 := Mem.loadWord_lt _ _ 8
    unfold x2aLowered
    omega
  stack_top := h.top
  area_apart := h.area_apart
  ctx_apart := h.ctx_apart
  stack_apart o ho := ⟨(h.stack_apart o ho).1, (h.stack_apart o ho).2.1⟩

theorem x2aBlocks_places (σ : Signature) :
    σ.xxInfo.ainfo.flatMap (fun xx => if xx.block then x2aBlock xx else []) = [] := by
  refine List.flatMap_eq_nil_iff.mpr fun x hx => ?_
  obtain ⟨p, hp, rfl⟩ := List.mem_map.mp hx
  obtain ⟨c, c', hlay⟩ := σ.laid_of_mem hp
  obtain ⟨t, al, -, -, hx, -⟩ := hlay.place
  generalize c'.2 = xl' at hx
  generalize p.2 = x at hx ⊢
  cases hx <;> rfl

/-- The address for a result goes to `x8`, and nothing else changes. -/
theorem run_x2aRet (E : BridgeExternals) (aaRet : ABIArgInfo AReg) (r : XxRet) (s : State) :
    ∃ code, x2aRet aaRet (xxRetInfo r) = some code ∧ ∃ s₁, run E code s = some s₁ ∧
      (∀ q, q ≠ .rax → s₁.gpr q = s.gpr q) ∧
      ∀ a, ¬ (x2aEnv s + 64 ≤ a ∧ a < x2aEnv s + 72) → s₁.mem a = s.mem a := by
  by_cases hr : (xxRetInfo r).indirect = true
  · have hreg : (xxRetInfo r).teGetReg 0 = some .rdi := by
      cases r <;> first | rfl | exact absurd hr (by decide)
    cases hind : aaRet.indirect with
    | false =>
      simp only [x2aRet, hr, hind]
      exact ⟨_, rfl, s, rfl, fun _ _ => rfl, fun _ _ => rfl⟩
    | true =>
      simp only [x2aRet, hr, hind, hreg]
      refine ⟨_, rfl, _, rfl, fun q hq => by simp [hq], fun a ha => ?_⟩
      refine Mem.storeWord_outside _ _ _ _ a ?_
      simp only [ea, setGpr_gpr, reduceCtorEq, if_false]
      unfold x2aEnv at ha
      omega
  · simp only [x2aRet, hr]
    exact ⟨_, rfl, s, rfl, fun _ _ => rfl, fun _ _ => rfl⟩

/-- The guest stack pointer is lowered, and `r10` and `r11` are set. -/
theorem run_x2aStack (E : BridgeExternals) (bytes : ℕ) (s : State)
    (hroom : ffiAlign bytes 16 ≤ x2aSp s) :
    ∃ s', run E (x2aStack bytes) s = some s' ∧ s'.gpr .rdi = s.gpr .rdi ∧ s'.gpr .rsi = s.gpr .rsi ∧
      (s'.gpr .r10).toNat = x2aSp s - ffiAlign bytes 16 ∧
      s'.gpr .r11 = BitVec.ofNat 64 (s'.mem.loadWord (x2aCtx s + ctxRspOffset) 8) + BitVec.ofInt 64 8 ∧
      s'.mem = s.mem.storeWord (x2aEnv s + spOffset) 8 (x2aSp s - ffiAlign bytes 16) := by
  have hload : (BitVec.ofNat 64 (s.mem.loadWord ((s.gpr .rdi).toNat + spOffset) 8)).toNat =
      x2aSp s := toNat_ofNat_loadWord _ _ _ le_rfl
  have hval : (BitVec.ofNat 64 (s.mem.loadWord ((s.gpr .rdi).toNat + spOffset) 8) +
      BitVec.ofInt 64 (-(ffiAlign bytes 16 : ℕ))).toNat = x2aSp s - ffiAlign bytes 16 := by
    rw [toNat_add_ofInt_neg _ (by rw [hload]; exact hroom), hload]
  simp only [x2aStack, run_cons, run_nil, Insn.step, bind_some, ea, setGpr_gpr,
    setGpr_mem, setMem_gpr, setMem_mem, reduceCtorEq, if_false, if_true, hval]
  refine ⟨_, rfl, rfl, rfl, ?_, ?_, rfl⟩
  · simp only [setGpr_gpr, reduceCtorEq, if_false, if_true, setMem_gpr, hval]
  · simp only [setGpr_gpr, if_true]
    rfl

/-- The host's stack arguments in `r11`, if the saved registers are not in the CPU state. -/
theorem x2aStack_r11 {bytes : ℕ} {s s' : State} (htop : x2aStackArgs s < 2 ^ 64)
    (hctx : ∀ o < 256, ¬ (x2aEnv s ≤ x2aCtx s + o ∧ x2aCtx s + o < x2aEnv s + 264))
    (hr11 : s'.gpr .r11 =
      BitVec.ofNat 64 (s'.mem.loadWord (x2aCtx s + ctxRspOffset) 8) + BitVec.ofInt 64 8)
    (hmem : s'.mem = s.mem.storeWord (x2aEnv s + spOffset) 8 (x2aSp s - ffiAlign bytes 16)) :
    (s'.gpr .r11).toNat = x2aStackArgs s := by
  have hkept : s'.mem.loadWord (x2aCtx s + ctxRspOffset) 8 =
      s.mem.loadWord (x2aCtx s + ctxRspOffset) 8 := by
    rw [hmem]
    refine Mem.loadWord_congr _ _ _ _ fun k hk => Mem.storeWord_outside _ _ _ _ _ ?_
    have := hctx (ctxRspOffset + k) (by unfold ctxRspOffset; omega)
    unfold spOffset
    omega
  have hargs : (BitVec.ofNat 64 (s'.mem.loadWord (x2aCtx s + ctxRspOffset) 8)).toNat + 8 =
      x2aStackArgs s := by
    rw [hkept, toNat_ofNat_loadWord _ _ _ le_rfl]
    rfl
  rw [hr11]
  exact (toNat_add_ofInt _ (hargs.trans_lt htop)).trans hargs

theorem X2aReady.run_start (h : X2aReady L σ.aaInfo σ.xxInfo s) (E : BridgeExternals) :
    ∃ ret, x2aRet σ.aaInfo.rinfo σ.xxInfo.rinfo = some ret ∧
      ∃ s', run E (ret ++ x2aStack σ.aaInfo.bytes) s = some s' ∧ X2aInv h.site s'.mem s' ∧
        s'.mem.loadWord (x2aEnv s + spOffset) 8 = x2aLowered σ.aaInfo s ∧
        ∀ a, h.site.Source a → s'.mem a = s.mem a := by
  have hz := L.zregs_ge
  have hL : L.size = L.zregs + 256 * 32 := rfl
  obtain ⟨ret, hret, s₁, hrun₁, hgpr, hmem⟩ := run_x2aRet E σ.aaInfo.rinfo σ.ret.xxRet s
  have henv : x2aEnv s₁ = x2aEnv s := by rw [x2aEnv, hgpr _ (by decide), x2aEnv]
  have hctx : x2aCtx s₁ = x2aCtx s := by rw [x2aCtx, hgpr _ (by decide), x2aCtx]
  have hsp : x2aSp s₁ = x2aSp s := by
    rw [x2aSp, x2aSp, henv]
    refine Mem.loadWord_congr _ _ _ _ fun k hk => hmem _ ?_
    unfold spOffset
    omega
  have hstack : x2aStackArgs s₁ = x2aStackArgs s := by
    rw [x2aStackArgs, x2aStackArgs, hctx]
    refine congrArg (· + 8) (Mem.loadWord_congr _ _ _ _ fun k hk => hmem _ ?_)
    have := (h.ctx_apart (ctxRspOffset + k) (by unfold ctxRspOffset; omega)).1
    omega
  have htop := h.top
  obtain ⟨s₂, hrun₂, hrdi, hrsi, hr10, hr11, hmem₂⟩ := run_x2aStack E σ.aaInfo.bytes s₁
    (by rw [hsp]; exact h.room)
  replace hr11 := x2aStack_r11 (by rw [hstack]; omega) (fun o ho => by
    have := (h.ctx_apart o ho).1
    rw [henv, hctx]
    omega) hr11 hmem₂
  rw [hsp, henv] at hmem₂
  refine ⟨ret, hret, s₂, (run_append_some E hrun₁).trans hrun₂, ⟨?_, ?_, ?_, ?_, fun _ _ => rfl⟩, ?_,
    fun a ha => ?_⟩
  · rw [hrdi, hgpr _ (by decide)]
    rfl
  · rw [hrsi, hgpr _ (by decide)]
    rfl
  · rw [hr10, hsp]
    rfl
  · rw [hr11, hstack]
    rfl
  · have : x2aSp s < 2 ^ 64 := Mem.loadWord_lt _ _ 8
    rw [hmem₂, Mem.loadWord_storeWord, Nat.mod_eq_of_lt (by omega)]
    rfl
  · have hout : ¬ (x2aEnv s ≤ a ∧ a < x2aEnv s + L.size) := by
      rcases ha with ⟨o, ho, rfl⟩ | ⟨o, ho, rfl⟩
      · exact (h.ctx_apart o ho).1
      · exact (h.stack_apart o ho).1
    rw [hmem₂, Mem.storeWord_outside _ _ _ _ _ (by unfold spOffset; omega)]
    exact hmem a (by omega)

/-- What the whole code does: it exists, it faults exactly at a wide store that is not aligned, and
otherwise fills each guest place with what it reads for the argument. -/
theorem X2aReady.run_spec (h : X2aReady L σ.aaInfo σ.xxInfo s) (E : BridgeExternals) :
    ∃ code, abiX2aEntryTranslation L σ.aaInfo σ.xxInfo = some code ∧
      (run E code s ≠ none ↔ ∀ p ∈ σ.places, VectorsAligned p.1 p.2) ∧
      ∀ s', run E code s = some s' →
        s'.mem.loadWord (x2aEnv s + spOffset) 8 = x2aLowered σ.aaInfo s ∧
        ∀ p ∈ σ.places, ∀ k < p.1.size,
          p.1.guestByte L (x2aEnv s) (x2aLowered σ.aaInfo s) s'.mem k =
            s.mem (x2aSource (x2aCtx s) (x2aStackArgs s) p.1 p.2 k) := by
  obtain ⟨ret, hret, s₂, hrun₂, hinv, hsp, hsrc⟩ := h.run_start E
  let S := h.site
  have hchain : Chain (x2aSteps E S s₂.mem).Lay ({}, σ.xxStart) σ.places
      (aaFinal σ.nfixed σ.args 0 {}, xxFinal σ.args σ.xxStart) := σ.chain (fun _ _ => trivial) le_rfl
  obtain ⟨args, hargs, hloop⟩ := x2aArgs_eq_run hchain hinv
  have hcode : abiX2aEntryTranslation L σ.aaInfo σ.xxInfo =
      some (ret ++ x2aStack σ.aaInfo.bytes ++ args) := by
    unfold abiX2aEntryTranslation
    rw [hret, bind_some]
    change (x2aArgs L (σ.places.map Prod.fst) (σ.places.map Prod.snd)).map _ = _
    rw [hargs, map_some, x2aBlocks_places, List.nil_append]
  have hrun : run E (ret ++ x2aStack σ.aaInfo.bytes ++ args) s =
      (x2aSteps E S s₂.mem).run σ.places s₂ := by
    rw [run_append_some E hrun₂, hloop]
  refine ⟨_, hcode, ?_, fun s' hs' => ⟨?_, fun p hp k hk => ?_⟩⟩
  · rw [hrun, x2aRun_ne_none_iff hchain hinv]
    refine forall₂_congr fun p hp => ?_
    obtain ⟨c, c', hlay⟩ := σ.laid_of_mem hp
    obtain ⟨t, al, -, ha, hx, -⟩ := hlay.place
    exact piecesAligned_iff ha hx
  · rw [hrun] at hs'
    rw [← hsp]
    refine Mem.loadWord_congr _ _ _ _ fun k hk => ?_
    exact (Steps.run_keeps _ hchain hinv hs').1.mem _ (X2aSite.sp_not_own hk)
  · rw [hrun] at hs'
    obtain ⟨c, c', hlay⟩ := σ.laid_of_mem hp
    obtain ⟨t, al, -, ha, hx, -⟩ := hlay.place
    refine (x2aRun_guestByte hchain hinv hs' hp hk).trans (hsrc _ ?_)
    exact x2aSource_source ha hx hlay.xxFits (by rw [← ha.size_eq]; exact hk)

/-- The host's bytes of an argument are sources other than the saved stack pointer. -/
theorem X2aReady.hostAddr_source (h : X2aReady L σ.aaInfo σ.xxInfo s) {p : Placement}
    (hp : p ∈ σ.places) {k : ℕ} (hk : k < p.1.size) :
    h.site.Source (x2aHostAddr (x2aCtx s) (x2aStackArgs s) p.2 k) ∧
      ∀ i < 8, x2aHostAddr (x2aCtx s) (x2aStackArgs s) p.2 k ≠ x2aCtx s + ctxRspOffset + i := by
  obtain ⟨a, x⟩ := p
  obtain ⟨c, c', hlay⟩ := σ.laid_of_mem hp
  obtain ⟨t, al, -, ha, hx, -⟩ := hlay.place
  have hfit := hlay.xxFits
  rw [ha.size_eq] at hk
  generalize c'.2 = xl' at hx hfit
  simp only at hx ⊢
  cases hx with
  | regs hfits =>
    obtain ⟨r, hr, hcase⟩ := hfits.teGetReg (show k / 8 < (t.size + 7) / 8 by omega)
    have hoff : x64Enum2Offset r + 8 ≤ 256 ∧ (x64Enum2Offset r + 8 ≤ 56 ∨ 64 ≤ x64Enum2Offset r) := by
      have hg := hfits.gpr
      have hv := hfits.sse
      rcases hcase with ⟨i, -, hi, rfl⟩ | ⟨i, -, hi, rfl⟩
      · simp only at hi
        have hi6 : i < 6 := by omega
        interval_cases i <;> decide
      · simp only [x64Enum2Offset] at hi ⊢
        omega
    simp only [x2aHostAddr, hr, elim_some, ctxRspOffset]
    exact ⟨Or.inl ⟨x64Enum2Offset r + k % 8, by omega, Nat.add_assoc _ _ _⟩, fun i hi => by omega⟩
  | stack =>
    simp only at hfit
    simp only [x2aHostAddr, ctxRspOffset]
    refine ⟨Or.inr ⟨ffiAlign c.2.bytes 8 + k, ?_, Nat.add_assoc _ _ _⟩, fun i hi => ?_⟩
    · change _ < σ.xxInfo.bytes + 16
      omega
    · have := (h.stack_apart (ffiAlign c.2.bytes 8 + k) (by omega)).2.2
      omega

/-- An argument that is read with the wrong strides: with one byte changed it is read wrongly. -/
theorem X2aReady.exists_misread (h : X2aReady L σ.aaInfo σ.xxInfo s) {p : Placement}
    (hp : p ∈ σ.places) (hns : ¬ x2aStrided p.1 p.2) :
    ∃ m, X2aReady L σ.aaInfo σ.xxInfo (s.setMem m) ∧
      x2aStackArgs (s.setMem m) = x2aStackArgs s ∧
      ∃ k < p.1.size, m (x2aSource (x2aCtx s) (x2aStackArgs s) p.1 p.2 k) ≠
        m (x2aHostAddr (x2aCtx s) (x2aStackArgs s) p.2 k) := by
  obtain ⟨c, c', hlay⟩ := σ.laid_of_mem hp
  obtain ⟨t, al, -, ha, hx, -⟩ := hlay.place
  obtain ⟨k, hk, hne⟩ : ∃ k < p.1.size, x2aSource (x2aCtx s) (x2aStackArgs s) p.1 p.2 k ≠
      x2aHostAddr (x2aCtx s) (x2aStackArgs s) p.2 k := by
    by_contra hall
    push Not at hall
    rw [ha.size_eq] at hall
    exact hns ((x2aStrided_iff ha hx).mpr hall)
  obtain ⟨hsource, hrsp⟩ := h.hostAddr_source hp hk
  set src := x2aSource (x2aCtx s) (x2aStackArgs s) p.1 p.2 k
  set dst := x2aHostAddr (x2aCtx s) (x2aStackArgs s) p.2 k
  let m := Function.update s.mem dst (s.mem src + 1)
  have hm : ∀ a, dst ≠ a → m a = s.mem a := fun a ha => Function.update_of_ne ha.symm _ _
  -- the guest stack pointer is in the CPU state
  have hcell : ∀ i < 8, dst ≠ x2aEnv s + spOffset + i := by
    intro i hi heq
    have hz := L.zregs_ge
    have hL : L.size = L.zregs + 256 * 32 := rfl
    rw [heq] at hsource
    unfold spOffset at hsource
    rcases hsource with ⟨o, ho, heq⟩ | ⟨o, ho, heq⟩
    · refine (h.ctx_apart o ho).1 ?_
      change _ = x2aCtx s + o at heq
      omega
    · refine (h.stack_apart o ho).1 ?_
      change _ = x2aStackArgs s + o at heq
      omega
  obtain ⟨hready, -, hstack⟩ := h.setMem (m := m) (fun i hi => hm _ (hcell i hi))
    fun i hi => hm _ (hrsp i hi)
  refine ⟨m, hready, hstack, k, hk, ?_⟩
  rw [hm src hne.symm]
  change s.mem src ≠ Function.update s.mem dst (s.mem src + 1) dst
  rw [Function.update_self]
  grind

end Entry

def pairSignature : Signature where
  ret := .void
  args := [.struct .float [.float]]
  nfixed := 0
  nfixed_le := Nat.zero_le _

/-- CPU state at 4096, saved registers at 32768, guest stack pointer 65536, host stack pointer 131072.
The second float in `xmm0` is not zero. -/
def hostCallState : State where
  gpr r := if r = .rdi then 4096 else if r = .rsi then 32768 else 0
  xmm _ _ := 0
  mem a := if a = 4346 then 1 else if a = 32826 then 2 else if a = 32900 then 1 else 0

/-- With few stack arguments `hostCallState` is a call site. -/
theorem x2aReady_hostCall {aaInfo : ABIFnInfo AReg} {xxInfo : ABIFnInfo XReg}
    (haa : aaInfo.bytes ≤ 4096) (hxx : xxInfo.bytes ≤ 4096) :
    X2aReady .least aaInfo xxInfo hostCallState := by
  have henv : x2aEnv hostCallState = 4096 := rfl
  have hctx : x2aCtx hostCallState = 32768 := rfl
  have hsp : x2aSp hostCallState = 65536 := by decide
  have hstack : x2aStackArgs hostCallState = 131080 := by decide
  have hL : EnvLayout.least.size = 8464 := rfl
  have hal := ffiAlign_sixteen aaInfo.bytes
  have hlow : x2aLowered aaInfo hostCallState = 65536 - ffiAlign aaInfo.bytes 16 := by
    rw [x2aLowered, hsp]
  constructor
  · rw [henv]
  · rw [hctx]
  · rw [hsp]
  · omega
  · omega
  · intro o ho
    omega
  · intro o ho
    omega
  · intro o ho
    omega

end Iqemu64
