import Iqemu64.DyMoves

/-!
# Delivery by the dynamic translation

For signatures without single-precision members in structs, every argument arrives and no assertion
fails.
-/

namespace Iqemu64
open ByteMemory StepChain List Signature

def FlatType.FloatFree : FlatType → Prop
  | .scalar _ => True
  | .struct s ss => ∀ x ∈ s :: ss, x ≠ .float

instance (t : FlatType) : Decidable t.FloatFree :=
  match t with
  | .scalar _ => inferInstanceAs (Decidable True)
  | .struct s ss => inferInstanceAs (Decidable (∀ x ∈ s :: ss, x ≠ .float))

theorem FlatType.FloatFree.vector {t : FlatType} (h : t.FloatFree) {elems width : ℕ}
    (hv : t.vector = some (elems, width)) : width = 8 ∨ elems = 1 := by
  cases t with
  | scalar s =>
    cases s <;> simp only [FlatType.vector, Option.some.injEq, Prod.mk.injEq, reduceCtorEq] at hv <;>
      obtain ⟨rfl, rfl⟩ := hv <;> exact Or.inr rfl
  | struct s ss =>
    simp only [FlatType.vector] at hv
    split_ifs at hv with hc
    obtain ⟨-, rfl⟩ := Prod.mk.inj (Option.some.inj hv)
    rcases hc.1 with rfl | rfl
    · exact absurd rfl (h _ mem_cons_self)
    · exact Or.inl rfl

section Argument
variable {L : EnvLayout} {env argSpace sp : ℕ} {t : FlatType} {xl : XxAlloc} {m : Mem}

theorem dyOneByOne_eq {aa : ABIArgInfo AReg} {info : LocInfo} {cs : List RegClass} {g v : ℕ} :
    dyOneByOne L env argSpace (xxPieces info cs g v) aa =
      (xxPieces info cs g v).zipIdx.map (dyPieceMove argSpace (fun j => dySrc L env (aa.teGetReg j))
        fun x => if x.isXmm then 16 else 8) := by
  unfold dyOneByOne
  apply map_congr_left
  rintro ⟨⟨x, i⟩, j⟩ -
  cases hx : x.isXmm <;> simp [dyPieceMove, hx]

theorem dyRegsFromMem_eq {info : LocInfo} {cs : List RegClass} {g v offset size : ℕ}
    (hne : (xxPieces info cs g v).length * 16 ≠ size) :
    dyRegsFromMem argSpace sp (xxPieces info cs g v) offset size =
      (xxPieces info cs g v).zipIdx.map (dyPieceMove argSpace (fun j => sp + offset + 8 * j)
        fun _ => 8) := by
  unfold dyRegsFromMem
  apply map_congr_left
  rintro ⟨⟨x, i⟩, j⟩ hp
  have hmem := mem_of_getElem? (mem_zipIdx_iff_getElem?.mp hp)
  simp only [hne, if_false, dyPieceMove]
  -- a vector piece has no location information that widens it
  rcases mem_xxPieces hmem with ⟨n, -, -, heq⟩ | ⟨n, -, -, heq⟩
  · cases heq
    rw [isXmm_xxGpr]
    rfl
  · cases heq
    rfl

variable {bank : ℕ → AReg} {start : ℕ}

theorem dyArg_regs_regs (hfits : t.XxFits xl)
    (hsrc : ∀ k < t.size, dySrc L env (some (bank (start + k / 8))) + k % 8 =
      (aaInRegs bank start ((t.size + 7) / 8) t.size).guestAddr L env sp m k) :
    ∃ mvs, dyArg L env argSpace sp (aaInRegs bank start ((t.size + 7) / 8) t.size) (t.xxInRegs xl) m =
        some (runMoves mvs m) ∧
      DyMoves argSpace t xl (t.xxAfterRegs xl) (t.xxInRegs xl)
        ((aaInRegs bank start ((t.size + 7) / 8) t.size).guestAddr L env sp m) mvs := by
  have hpos := t.size_pos
  refine ⟨_, ?_, dyMoves_regs
    (fun j => dySrc L env ((aaInRegs bank start ((t.size + 7) / 8) t.size).teGetReg j))
    (fun x => if x.isXmm then 16 else 8) hfits (fun x => ?_) fun k hk => ?_⟩
  · unfold dyArg
    rw [teNumOfReg_xxInRegs hfits, teNumOfReg_aaInRegs,
      if_neg (by simp [ABIArgInfo.teIsMem]; omega), if_neg (by simp)]
    simp only [if_true]
    rw [dyOneByOne_eq]
  · cases x.isXmm <;> simp
  · rw [← hsrc k hk, teGetReg_aaInRegs (by omega)]

theorem dyArg_regs_stack (hfits : t.XxFits xl) (offset : ℕ) :
    ∃ mvs, dyArg L env argSpace sp (aaOnStack offset t.size) (t.xxInRegs xl) m =
        some (runMoves mvs m) ∧
      DyMoves argSpace t xl (t.xxAfterRegs xl) (t.xxInRegs xl)
        ((aaOnStack offset t.size).guestAddr L env sp m) mvs := by
  have hpos := t.size_pos
  refine ⟨_, ?_, dyMoves_regs (fun j => sp + offset + 8 * j) (fun _ => 8) hfits
    (fun _ => Or.inl rfl) fun k hk => ?_⟩
  · unfold dyArg
    rw [teNumOfReg_xxInRegs hfits, if_neg (by simp [ABIArgInfo.teIsMem]; omega), if_neg (by simp)]
    simp only
    rw [dyRegsFromMem_eq]
    rw [xxPieces_length, FlatType.classes_length_of_le hfits.size]
    omega
  · change _ = sp + offset + k
    omega

theorem dyArg_stack_regs (hn : ((t.size + 7) / 8) * 16 ≠ t.size)
    (hsrc : ∀ k < t.size, dySrc L env (some (bank (start + k / 8))) + k % 8 =
      (aaInRegs bank start ((t.size + 7) / 8) t.size).guestAddr L env sp m k) :
    ∃ mvs, dyArg L env argSpace sp (aaInRegs bank start ((t.size + 7) / 8) t.size) (t.xxOnStack xl) m =
        some (runMoves mvs m) ∧
      DyMoves argSpace t xl (t.xxAfterStack xl) (t.xxOnStack xl)
        ((aaInRegs bank start ((t.size + 7) / 8) t.size).guestAddr L env sp m) mvs := by
  have hpos := t.size_pos
  have hlen : (aaInRegs bank start ((t.size + 7) / 8) t.size).regs.length = (t.size + 7) / 8 :=
    teNumOfReg_aaInRegs
  refine ⟨_, ?_, dyMoves_stackRegs (aaInRegs bank start ((t.size + 7) / 8) t.size).regs
    (fun a => dySrc L env (some a)) hlen fun k hk => ?_⟩
  · unfold dyArg
    rw [teNumOfReg_aaInRegs, if_neg (by simp [ABIArgInfo.teIsMem]; omega), if_neg (by simp)]
    simp only [dyMemFromRegs, hlen, hn, if_false]
  · exact ⟨bank (start + k / 8), teGetReg_aaInRegs (by omega), hsrc k hk⟩

theorem dyArg_stack_stack (offset : ℕ) :
    ∃ mvs, dyArg L env argSpace sp (aaOnStack offset t.size) (t.xxOnStack xl) m =
        some (runMoves mvs m) ∧
      DyMoves argSpace t xl (t.xxAfterStack xl) (t.xxOnStack xl)
        ((aaOnStack offset t.size).guestAddr L env sp m) mvs := by
  refine ⟨_, ?_, dyMoves_block (sp + offset) (if t.size ≤ 2 then t.locInfo else .noLocInfo) ?_
    fun k _ => rfl⟩
  · unfold dyArg
    rw [if_neg (by simp [ABIArgInfo.teIsMem]), if_neg (by simp)]
    simp only [if_true]
  · split_ifs with h2
    · rfl
    · cases hw : t.locInfo.widening with
      | none => rfl
      | some w =>
        obtain ⟨hsz, hwidth, -⟩ := FlatType.locInfo_widening hw
        omega

theorem dyArg_pointer {a : ABIArgInfo AReg} (hind : a.indirect = true) (h16 : 16 < t.size)
    (hplace : a.teIsMem = true ∨ 0 < a.teNumOfReg) :
    ∃ mvs, dyArg L env argSpace sp a (t.xxOnStack xl) m = some (runMoves mvs m) ∧
      DyMoves argSpace t xl (t.xxAfterStack xl) (t.xxOnStack xl) (a.guestAddr L env sp m) mvs := by
  refine ⟨_, ?_, dyMoves_block (m.loadWord (a.slotAddr L env sp) 8) .noLocInfo ?_
    fun k _ => (guestAddr_pointer hind k).symm⟩
  · unfold dyArg
    rw [if_neg, if_neg (by simp)]
    · simp only [hind]
      rw [if_pos (by omega)]
    · have hmem : (t.xxOnStack xl).teIsMem = true := rfl
      rcases hplace with h | h <;> simp [hmem, h]
      omega
  · cases hw : t.locInfo.widening with
    | none => rfl
    | some w =>
      obtain ⟨hsz, hwidth, -⟩ := FlatType.locInfo_widening hw
      omega

variable {al al' : AaAlloc} {xl' : XxAlloc} {a : ABIArgInfo AReg} {x : ABIArgInfo XReg}

/-- Without single-precision members, a vector argument has eight bytes in each register. -/
theorem FlatType.FloatFree.vector_stride (hQ : t.FloatFree) {elems width : ℕ}
    (hv : t.vector = some (elems, width)) (v : ℕ) : elems = (t.size + 7) / 8 ∧ elems * 16 ≠ t.size ∧
      ∀ k < t.size, dySrc L env (some (.q (v + k / 8))) + k % 8 =
        (aaInRegs .q v elems t.size).guestAddr L env sp m k := by
  obtain ⟨h1, -, hwidth, hsize⟩ := FlatType.vector_spec hv
  have hcase := hQ.vector hv
  rw [hsize]
  refine ⟨?_, ?_, fun k hk => ?_⟩
  · rcases hcase with rfl | rfl <;> omega
  · rcases hwidth with rfl | rfl <;> omega
  · rw [guestAddr_vector (by omega) hk, dySrc, a64Enum2Offset]
    rcases hcase with rfl | rfl
    · rfl
    · rw [Nat.div_eq_of_lt (show k < 8 by omega), Nat.div_eq_of_lt (show k < width by omega),
        Nat.mod_eq_of_lt (show k < 8 by omega), Nat.mod_eq_of_lt (show k < width by omega)]

theorem dySrc_general {g k : ℕ} (hk : k < t.size) : dySrc L env (some (.x (g + k / 8))) + k % 8 =
    (aaInRegs .x g ((t.size + 7) / 8) t.size).guestAddr L env sp m k := by
  rw [guestAddr_general (by omega), dySrc, a64Enum2Offset]
  omega

/-- One turn of the loop succeeds and is a list of copies that delivers the argument. -/
theorem dyArg_moves (hQ : t.FloatFree) (ha : AaPlaced t al a al') (hx : XxPlaced t xl x xl') :
    ∃ mvs, dyArg L env argSpace sp a x m = some (runMoves mvs m) ∧
      DyMoves argSpace t xl xl' x (a.guestAddr L env sp m) mvs := by
  have hpos := t.size_pos
  cases ha with
  | vector hv hfit =>
    obtain ⟨hn, h16, hsrc⟩ := hQ.vector_stride hv al.ssecount
    rw [hn] at h16 hsrc ⊢
    cases hx with
    | regs hfits => exact dyArg_regs_regs hfits hsrc
    | stack => exact dyArg_stack_regs h16 hsrc
  | general hv h16 hfit =>
    cases hx with
    | regs hfits => exact dyArg_regs_regs hfits fun k hk => dySrc_general hk
    | stack => exact dyArg_stack_regs (by omega) fun k hk => dySrc_general hk
  | pointer hv h16 hfit =>
    cases hx with
    | regs hfits => exact absurd hfits.size (by omega)
    | stack => exact dyArg_pointer rfl h16 (Or.inr zero_lt_one)
  | stackVector hv =>
    cases hx with
    | regs hfits => exact dyArg_regs_stack hfits _
    | stack => exact dyArg_stack_stack _
  | stackGeneral hv h16 =>
    cases hx with
    | regs hfits => exact dyArg_regs_stack hfits _
    | stack => exact dyArg_stack_stack _
  | stackPointer hv h16 =>
    cases hx with
    | regs hfits => exact absurd hfits.size (by omega)
    | stack => exact dyArg_pointer rfl h16 (Or.inl rfl)

end Argument

/-- A turn of the loop changes nothing outside what the counters give its argument. -/
theorem dyArg_outside {L : EnvLayout} {env argSpace sp aaBytes xxBytes : ℕ} {c c₁ : Counters}
    {p : Placement} {m m₁ : Mem} (hlay : Laid FlatType.FloatFree aaBytes xxBytes c p c₁)
    (hstep : dyArg L env argSpace sp p.1 p.2 m = some m₁) {a : ℕ} (h : ¬ DyOwn argSpace c.2 c₁.2 a) :
    m₁ a = m a := by
  obtain ⟨t, al, hQ, ha, hx, -⟩ := hlay.place
  obtain ⟨mvs, hrun, hmoves⟩ := dyArg_moves hQ ha hx
  obtain rfl := Option.some.inj (hrun.symm.trans hstep)
  exact runMoves_outside m fun mv hmv hc => h (hmoves.own mv hmv a hc)

def dySteps (L : EnvLayout) (env argSpace sp aaBytes xxBytes : ℕ) (m₀ : Mem) :
    Steps Mem Counters Placement where
  Lay := Laid FlatType.FloatFree aaBytes xxBytes
  step p m := dyArg L env argSpace sp p.1 p.2 m
  Inv _ m := ∀ a, ¬ DyArea argSpace xxBytes a → m a = m₀ a
  Agree c m m' := AgreeBelow c.2 (dyHostView argSpace m) (dyHostView argSpace m')
  agree_refl c m := AgreeBelow.refl c.2 _
  agree_trans h₁ h₂ := h₁.trans h₂
  agree_mono h ha := ha.mono h.mono.2.2.2.1 h.mono.2.2.2.2.1 h.mono.2.2.2.2.2
  step_keeps := by
    intro c p c₁ m m₁ hlay hinv hstep
    have hout : ∀ a, ¬ DyOwn argSpace c.2 c₁.2 a → m₁ a = m a := fun a =>
      dyArg_outside hlay hstep
    refine ⟨fun a ha => ?_, agreeBelow_of_dyOwn hlay.inRange.xxGpr hlay.inRange.xxSse hout⟩
    rw [hout a fun ho => ha (ho.area hlay.xxFits)]
    exact hinv a ha

theorem dyArgs_eq_run (L : EnvLayout) (env argSpace sp aaBytes xxBytes : ℕ) (m₀ : Mem)
    (ps : List Placement) (m : Mem) : dyArgs L env argSpace sp (ps.map Prod.fst) (ps.map Prod.snd) m =
      (dySteps L env argSpace sp aaBytes xxBytes m₀).run ps m := by
  induction ps generalizing m with
  | nil => rfl
  | cons p ps ih =>
    rw [map_cons, map_cons, dyArgs, Steps.run]
    exact congrArg (Option.bind _) (funext ih)

/-- What the block must not overlap: the CPU state, the stack arguments and the structs that are
passed by pointer. -/
structure DySeparate (L : EnvLayout) (env argSpace sp : ℕ) (aaInfo : ABIFnInfo AReg)
    (xxInfo : ABIFnInfo XReg) (m : Mem) : Prop where
  state : ∀ o < L.size, ¬ DyArea argSpace xxInfo.bytes (env + o)
  stack : ∀ o < aaInfo.bytes, ¬ DyArea argSpace xxInfo.bytes (sp + o)
  pointee : ∀ a ∈ aaInfo.ainfo, a.indirect = true → ∀ k < a.size,
    ¬ DyArea argSpace xxInfo.bytes (a.guestAddr L env sp m k)

theorem dyRet_xxRetInfo (env argSpace sret : ℕ) (aaRet : ABIArgInfo AReg) (r : XxRet) (m : Mem) :
    ∃ m', dyRet env argSpace sret aaRet (xxRetInfo r) m = some m' ∧
      ∀ a, (a < argSpace ∨ argSpace + 8 ≤ a) → m' a = m a := by
  by_cases hr : (xxRetInfo r).indirect = true
  · -- a result in memory: its address goes to the first register
    have hreg : (xxRetInfo r).teGetReg 0 = some .rdi := by
      cases r <;> first | rfl | exact absurd hr (by decide)
    cases hind : aaRet.indirect with
    | false =>
      refine ⟨m.storeWord argSpace 8 sret, ?_, fun a ha => m.storeWord_outside _ _ _ a ha⟩
      simp only [dyRet, hr, hind, hreg]
      rfl
    | true =>
      refine ⟨m.memcpy argSpace (env + 8 * 8) 8, ?_, fun a ha => m.memcpy_outside _ _ _ a ha⟩
      simp only [dyRet, hr, hind, hreg]
      rfl
  · refine ⟨m, ?_, fun _ _ => rfl⟩
    simp only [dyRet, hr]

def ABIFnInfo.xmmCount (xx : ABIFnInfo XReg) : ℕ :=
  (xx.ainfo.map fun x => x.regs.countP XReg.isXmm).sum

theorem countP_isXmm_xxPieces (info : LocInfo) (cs : List RegClass) (g v : ℕ) :
    ((xxPieces info cs g v).map Prod.fst).countP XReg.isXmm = cs.countP RegClass.isSse := by
  induction cs generalizing g v with
  | nil => rfl
  | cons c cs ih =>
    cases hc : c.isSse
    · simp [xxPieces, hc, isXmm_xxGpr, ih]
    · simp [xxPieces, hc, countP_cons, XReg.isXmm, ih]

theorem XxPlaced.ssecount_eq {t : FlatType} {xl xl' : XxAlloc} {x : ABIArgInfo XReg}
    (h : XxPlaced t xl x xl') : xl'.ssecount = xl.ssecount + x.regs.countP XReg.isXmm := by
  cases h with
  | regs hfits =>
    have := countP_isXmm_xxPieces t.locInfo t.classes xl.gprcount xl.ssecount
    simp only [ABIArgInfo.regs, this]
  | stack => rfl

theorem chain_ssecount {Q : FlatType → Prop} {aaBytes xxBytes : ℕ} {c c' : Counters}
    {ps : List Placement} (h : Chain (Laid Q aaBytes xxBytes) c ps c') :
    c'.2.ssecount = c.2.ssecount + (ps.map fun p => p.2.regs.countP XReg.isXmm).sum := by
  induction h with
  | nil c => rfl
  | cons head tail ih =>
    obtain ⟨t, al, -, -, hx, -⟩ := head.place
    rw [ih, hx.ssecount_eq, map_cons, sum_cons, Nat.add_assoc]

theorem Signature.ssecount_eq (σ : Signature) : σ.xxInfo.ssecount = σ.xxInfo.xmmCount := by
  have h := chain_ssecount (σ.chain (Q := fun _ => True) (fun _ _ => trivial) le_rfl)
  change (xxFinal σ.args σ.xxStart).ssecount = _ at h
  rw [ABIFnInfo.xmmCount]
  change (xxFinal σ.args σ.xxStart).ssecount = ((σ.places.map Prod.snd).map _).sum
  rw [h, map_map]
  exact Nat.zero_add _

theorem agreeBelow_storeWord_rax {xl : XxAlloc} (hg : xl.gprcount ≤ 6) (hs : xl.ssecount ≤ 8)
    (argSpace v : ℕ) (m : Mem) : AgreeBelow xl (dyHostView argSpace m)
      (dyHostView argSpace (m.storeWord (argSpace + 176) 8 v)) := by
  have hsize : registerArgsSize = 184 := rfl
  refine ⟨fun g hlt k hk => ?_, fun n hlt k hk => ?_, fun o ho => ?_⟩ <;>
    refine m.storeWord_outside _ _ _ _ ?_
  · rw [x64Enum2Ptr_xxGpr (by omega)]
    omega
  · simp only [x64Enum2Ptr]
    omega
  · omega

theorem Signature.ssecount_le (σ : Signature) : σ.xxInfo.ssecount ≤ 8 :=
  (chain_inRange (σ.chain (Q := fun _ => True) (fun _ _ => trivial) le_rfl) σ.start_inRange).xxSse

section Run
variable {L : EnvLayout} {env argSpace sp : ℕ} {σ : Signature} {m₀ m m' : Mem}

theorem DySeparate.out (hsep : DySeparate L env argSpace sp σ.aaInfo σ.xxInfo m₀) {t : FlatType}
    {al al' : AaAlloc} {a : ABIArgInfo AReg} (ha : AaPlaced t al a al')
    (hfit : al'.stackOffset ≤ σ.aaInfo.bytes) (hmem : a ∈ σ.aaInfo.ainfo) :
    (∀ k < a.size, ¬ DyArea argSpace σ.xxInfo.bytes (a.guestAddr L env sp m₀ k)) ∧
      (a.indirect = true → ∀ k < 8, ¬ DyArea argSpace σ.xxInfo.bytes (a.slotAddr L env sp + k)) := by
  let Out : ℕ → Prop := fun b => ¬ DyArea argSpace σ.xxInfo.bytes b
  exact ⟨ha.guestAddr_mem Out hsep.state hsep.stack hfit (hsep.pointee a hmem),
    ha.slotAddr_mem Out hsep.state hsep.stack hfit⟩

theorem dyArgs_run (hσ : ∀ t ∈ σ.args, t.FloatFree)
    (hm : ∀ a, ¬ DyArea argSpace σ.xxInfo.bytes a → m a = m₀ a) :
    ∃ m', dyArgs L env argSpace sp σ.aaInfo.ainfo σ.xxInfo.ainfo m = some m' ∧
      (dySteps L env argSpace sp σ.aaInfo.bytes σ.xxInfo.bytes m₀).run σ.places m = some m' := by
  have hrun := dyArgs_eq_run L env argSpace sp σ.aaInfo.bytes σ.xxInfo.bytes m₀ σ.places m
  have hok : (dySteps L env argSpace sp σ.aaInfo.bytes σ.xxInfo.bytes m₀).run σ.places m ≠ none := by
    refine (Steps.run_ne_none_iff _ (fun {c p c₁ s} hlay _ => ?_) (σ.chain hσ le_rfl) hm).mpr
      fun _ _ => trivial
    obtain ⟨t, al, hQ, ha, hx, -⟩ := hlay.place
    obtain ⟨mvs, hmvs, -⟩ : ∃ mvs, dyArg L env argSpace sp p.1 p.2 s = some (runMoves mvs s) ∧ _ :=
      dyArg_moves hQ ha hx
    change dyArg L env argSpace sp p.1 p.2 s ≠ none ↔ True
    simp [hmvs]
  obtain ⟨m', hm'⟩ := Option.ne_none_iff_exists'.mp hok
  exact ⟨m', hrun.trans hm', hm'⟩

/-- After the loop every argument is in its place, and stays there when `rax` is set. -/
theorem dyArgs_hostHolds (hσ : ∀ t ∈ σ.args, t.FloatFree)
    (hsep : DySeparate L env argSpace sp σ.aaInfo σ.xxInfo m₀)
    (hm : ∀ a, ¬ DyArea argSpace σ.xxInfo.bytes a → m a = m₀ a)
    (hrun : (dySteps L env argSpace sp σ.aaInfo.bytes σ.xxInfo.bytes m₀).run σ.places m = some m')
    {p : Placement} (hp : p ∈ σ.places) (v : ℕ) :
    HostHolds (dyHostView argSpace (m'.storeWord (argSpace + 176) 8 v)) p.2
      (p.1.guestByte L env sp m₀) := by
  obtain ⟨c, c', m₁, m₂, hlay, hinv, hstep, hagree⟩ :=
    Steps.exists_step_of_mem _ (σ.chain hσ le_rfl) hm hrun hp
  obtain ⟨t, al, hQ, ha, hx, hal⟩ := hlay.place
  have hfit : al.stackOffset ≤ σ.aaInfo.bytes := by
    have h := hlay.aaFits
    rcases hal with hal | hal <;> rw [hal] at h <;> exact h
  obtain ⟨hbytes, hslot⟩ := hsep.out ha hfit (mem_map_of_mem hp)
  have haddr : p.1.guestAddr L env sp m₁ = p.1.guestAddr L env sp m₀ :=
    guestAddr_congr fun hind k hk => hinv _ (hslot hind k hk)
  obtain ⟨mvs, hmvs, hmoves⟩ := dyArg_moves hQ ha hx
  obtain rfl := Option.some.inj (hmvs.symm.trans hstep)
  rw [haddr] at hmoves
  have hrange := hlay.inRange_after
  have hrax := agreeBelow_storeWord_rax hrange.xxGpr hrange.xxSse argSpace v m'
  refine HostHolds.of_agreeBelow hx (AgreeBelow.trans hagree hrax)
    (hmoves.holds hx hlay.xxFits hinv fun k hk => hbytes k ?_)
  rwa [ha.size_eq]

end Run

/-- An 8-bit integer, a struct that AArch64 passes by pointer, a struct of two doubles, a float. -/
def mixedSignature : Signature where
  ret := .void
  args := [.scalar .sint8, .struct .sint64 [.double, .pointer], .struct .double [.double],
    .scalar .float]
  nfixed := 0
  nfixed_le := Nat.zero_le _

theorem dySeparate_mixed : DySeparate .least 0 65536 32768 mixedSignature.aaInfo
    mixedSignature.xxInfo fun _ => 0 := by
  have hsize : EnvLayout.least.size = 8464 := rfl
  have haa : mixedSignature.aaInfo.bytes = 0 := by decide
  refine ⟨fun o ho h => ?_, fun o ho => ?_, fun a ha hind k hk h => ?_⟩
  · have := h.1
    omega
  · omega
  · -- the pointer is zero
    have hptr : a.guestAddr .least 0 32768 (fun _ => 0) k = k := by
      rw [guestAddr_pointer hind, Mem.loadWord_zero, Nat.zero_add]
    have hle : ∀ a ∈ mixedSignature.aaInfo.ainfo, a.size ≤ 24 := by decide
    have := hle a ha
    have := h.1
    omega

end Iqemu64
