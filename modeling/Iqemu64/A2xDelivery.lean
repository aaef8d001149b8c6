import Iqemu64.A2xConcat
import Iqemu64.A2xSource

/-!
# Delivery by the guest-to-host code
-/

namespace Iqemu64
open ByteMemory X64 StepChain Option ABIArgInfo

section Argument
variable {L : EnvLayout} (E : BridgeExternals) {S : A2xSite L} {m₀ : Mem} {c c' : Counters}
  {p : Placement} {s : State}

theorem a2xStep_pointerReg {t : FlatType} {g : ℕ} (hinv : A2xInv S m₀ c s) (hc : c.2.gprcount ≤ 6)
    (hle : c.1.ssecount ≤ c'.1.ssecount) (h16 : 16 < t.size) (hg : g < 8)
    (hfit : ffiAlign c.2.bytes 8 + t.size ≤ S.frame) {a : ABIArgInfo AReg}
    (ha : a = { aaInRegs .x g 1 t.size with indirect := true }) (hptr : S.Pointee m₀ a) :
    ∃ code, a2xArg L a (t.xxOnStack c.2) = some code ∧
      (run E code s ≠ none ↔ PiecesAligned L a (t.xxOnStack c.2)) ∧
      ∀ s', run E code s = some s' → A2xStep S m₀ c c' (a, t.xxOnStack c.2) s s' := by
  have hz := L.zregs_ge
  have hslot : a.slotAddr L S.env S.sp = S.env + 8 * g := by rw [ha]; rfl
  refine a2xStep_pointer E hinv hc hle h16 hfit (by rw [ha]) (by rw [ha]) (fun k hk => ?_) hptr
    [.ld .rsi .rbx (8 * g)] ?_ fun u hrbx hu => ⟨u.gpr .rax, ?_⟩
  · rw [hslot, Nat.add_assoc]
    exact hinv.mem_general (by omega)
  · subst ha
    unfold a2xArg
    rw [if_neg (by simp [teIsMem, teNumOfReg, regs, aaRegs]),
      if_neg (by simp)]
    simp only
    rw [if_pos (by omega)]
    rfl
  · simp only [run_cons, run_nil, Insn.step, bind_some, State.setGpr_self]
    rw [loadWord_state hinv hrbx hu (by unfold EnvLayout.size; omega), hslot]

theorem a2xStep_pointerStack {t : FlatType} {offset : ℕ} (hinv : A2xInv S m₀ c s)
    (hc : c.2.gprcount ≤ 6) (hcs : c.1.ssecount ≤ 8) (hle : c.1.ssecount ≤ c'.1.ssecount)
    (h16 : 16 < t.size) (hoff : offset + 8 ≤ S.aaBytes)
    (hfit : ffiAlign c.2.bytes 8 + t.size ≤ S.frame) {a : ABIArgInfo AReg}
    (ha : a = { aaOnStack offset t.size with indirect := true }) (hptr : S.Pointee m₀ a) :
    ∃ code, a2xArg L a (t.xxOnStack c.2) = some code ∧
      (run E code s ≠ none ↔ PiecesAligned L a (t.xxOnStack c.2)) ∧
      ∀ s', run E code s = some s' → A2xStep S m₀ c c' (a, t.xxOnStack c.2) s s' := by
  have htop := S.sp_top
  have hsp : (BitVec.ofNat 64 S.sp).toNat = S.sp := by
    rw [BitVec.toNat_ofNat, Nat.mod_eq_of_lt (by omega)]
  have hslot : a.slotAddr L S.env S.sp = S.sp + offset := by rw [ha]; rfl
  refine a2xStep_pointer E hinv hc hle h16 hfit (by rw [ha]) (by rw [ha]) (fun k hk => ?_) hptr
    [.ld .rax .rbx spOffset, .ld .rsi .rax offset] ?_
    fun u hrbx hu => ⟨BitVec.ofNat 64 S.sp, ?_⟩
  · rw [hslot, Nat.add_assoc]
    exact hinv.mem_stack hcs (by omega)
  · subst ha
    unfold a2xArg
    rw [if_neg (by simp [teIsMem]), if_neg (by simp)]
    simp only
    rw [if_pos (by omega)]
  · simp only [run_cons, run_nil, Insn.step, bind_some, loadWord_sp_of_frame hinv hrbx hu]
    simp only [State.ea, State.setGpr_gpr_same, hsp, State.setGpr_mem, hslot]
    rw [Mem.loadWord_congr u.mem s.mem _ _ fun k hk => ?_]
    rw [Nat.add_assoc]
    exact hu _ (S.stack_apart (offset + k) (by omega)).1

theorem a2xArg_spec (hlay : Laid (fun _ => True) S.aaBytes S.frame c p c') (hptr : S.Pointee m₀ p.1)
    (hinv : A2xInv S m₀ c s) : ∃ code, a2xArg L p.1 p.2 = some code ∧
      (run E code s ≠ none ↔ PiecesAligned L p.1 p.2) ∧
      ∀ s', run E code s = some s' → A2xStep S m₀ c c' p s s' := by
  obtain ⟨a, x⟩ := p
  obtain ⟨al', xl'⟩ := c'
  obtain ⟨t, al, -, ha, hx, hal⟩ := hlay.place
  have hpos := t.size_pos
  have hg := hlay.inRange.xxGpr
  have hle : c.1.ssecount ≤ al'.ssecount := hlay.mono.2.1
  have hfitA : al.stackOffset ≤ S.aaBytes := by
    have h := hlay.aaFits
    rcases hal with hal | hal <;> rw [hal] at h <;> exact h
  have hfitX : xl'.bytes ≤ S.frame := hlay.xxFits
  have hbytes : c.2.bytes ≤ S.frame := hlay.mono.2.2.2.2.2.trans hlay.xxFits
  simp only at ha hx hptr
  cases ha with
  | vector hv hfit =>
    rename_i elems width
    obtain ⟨h1, h4, hwidth, hsize⟩ := FlatType.vector_spec hv
    cases hx with
    | regs hfits =>
      by_cases hone : width = 8 ∨ elems = 1
      · refine a2xStep_oneByOne E hinv hfits hle rfl rfl ?_
        rw [teNumOfReg_aaInRegs, hsize]
        rcases hone with rfl | rfl <;> omega
      · obtain rfl : width = 4 := by omega
        refine a2xStep_concat E hinv hfits hg hbytes hv (by omega) hfit ?_
        rcases hal with hal | hal <;> rw [hal]
        exact hfit
    | stack =>
      refine a2xStep_slots E hinv hg hle rfl rfl ?_ ?_ ?_ ?_
      · rw [teNumOfReg_aaInRegs, hsize]
        rcases hwidth with rfl | rfl <;> omega
      · rw [teNumOfReg_aaInRegs, hsize]
        rcases hwidth with rfl | rfl <;> omega
      · intro r hr
        obtain ⟨j, hj, rfl⟩ := mem_regs_aaInRegs hr
        simp only [a64Enum2Offset, EnvLayout.size]
        omega
      · rw [teNumOfReg_aaInRegs]
        simp only at hfitX
        rcases hwidth with rfl | rfl <;> omega
  | general hv h16 hfit =>
    cases hx with
    | regs hfits => exact a2xStep_oneByOne E hinv hfits hle rfl rfl teNumOfReg_aaInRegs
    | stack =>
      refine a2xStep_slots E hinv hg hle rfl rfl (le_of_eq teNumOfReg_aaInRegs.symm) ?_ ?_ ?_
      · rw [teNumOfReg_aaInRegs]
        omega
      · intro r hr
        obtain ⟨j, hj, rfl⟩ := mem_regs_aaInRegs hr
        have hz := L.zregs_ge
        simp only [a64Enum2Offset, EnvLayout.size]
        omega
      · rw [teNumOfReg_aaInRegs]
        simp only at hfitX
        omega
  | pointer hv h16 hfit =>
    cases hx with
    | regs hfits => exact absurd hfits.size (by omega)
    | stack => exact a2xStep_pointerReg E hinv hg hle h16 (by omega) hfitX rfl hptr
  | stackVector hv =>
    cases hx with
    | regs hfits => exact a2xStep_regsFromStack E hinv hfits hg hle _
    | stack => exact a2xStep_stackFromStack E hinv hg hle hfitX hfitA
  | stackGeneral hv h16 =>
    cases hx with
    | regs hfits => exact a2xStep_regsFromStack E hinv hfits hg hle _
    | stack => exact a2xStep_stackFromStack E hinv hg hle hfitX hfitA
  | stackPointer hv h16 =>
    cases hx with
    | regs hfits => exact absurd hfits.size (by omega)
    | stack =>
      exact a2xStep_pointerStack E hinv hg hlay.inRange.aaSse hle h16 hfitA hfitX rfl hptr

end Argument

theorem A2xInv.mem_own {L : EnvLayout} {S : A2xSite L} {m₀ : Mem} {c : Counters} {s : State}
    {a : ABIArgInfo AReg} {addr : ℕ} (hinv : A2xInv S m₀ c s) (hc : c.1.ssecount ≤ 8)
    (hfit : ∀ offset info, a.loc = .mem offset info → offset + a.stackExtent ≤ S.aaBytes)
    (hind : a.indirect = false) (h : OwnByte L S.env S.sp c.1 a addr) : s.mem addr = m₀ addr := by
  rcases h with ⟨o, ho, rfl⟩ | ⟨v, hv, hv8, o, ho, rfl⟩ | ⟨offset, info, hloc, o, ho, rfl⟩
  · exact hinv.mem_general ho
  · exact hinv.mem_vector hv (by omega) (by omega)
  · have := hfit offset info hloc
    rw [stackExtent, hind, if_neg Bool.false_ne_true] at this
    exact hinv.mem_stack hc (by omega)

/-- The word that holds an argument's pointer does not change. -/
theorem A2xInv.mem_slot {L : EnvLayout} {S : A2xSite L} {m₀ : Mem} {c c' : Counters} {p : Placement}
    {s : State} (hinv : A2xInv S m₀ c s)
    (hlay : Laid (fun _ => True) S.aaBytes S.frame c p c') (hind : p.1.indirect = true) :
    ∀ k < 8, s.mem (p.1.slotAddr L S.env S.sp + k) = m₀ (p.1.slotAddr L S.env S.sp + k) := by
  intro k hk
  obtain ⟨t, al, -, ha, -, -⟩ := hlay.place
  have haaFits := hlay.aaFits
  have hstack := fun offset info (h : p.1.loc = .mem offset info) => hlay.stack h
  have hcs := hlay.inRange.aaSse
  obtain ⟨a, x⟩ := p
  simp only at ha hind
  cases ha with
  | pointer hv h16 hfit =>
    change s.mem (S.env + 8 * c.1.gprcount + k) = m₀ (S.env + 8 * c.1.gprcount + k)
    rw [Nat.add_assoc]
    exact hinv.mem_general (by omega)
  | stackPointer hv h16 =>
    have hend := (hstack _ _ rfl).2
    change s.mem (S.sp + _ + k) = m₀ (S.sp + _ + k)
    simp only [stackExtent, if_true] at hend
    rw [Nat.add_assoc]
    exact hinv.mem_stack hcs (by omega)
  | _ => cases hind

/-- What the code reads for an argument is what the guest state had at the start. -/
theorem a2xSource_kept {L : EnvLayout} {S : A2xSite L} {m₀ : Mem} {c c' : Counters} {p : Placement}
    {s : State} (hlay : Laid (fun _ => True) S.aaBytes S.frame c p c') (hptr : S.Pointee m₀ p.1)
    (hinv : A2xInv S m₀ c s) {k : ℕ} (hk : k < p.1.size) :
    s.mem (a2xSource L S.env S.sp s.mem p.1 p.2 k) = m₀ (a2xSource L S.env S.sp m₀ p.1 p.2 k) := by
  obtain ⟨t, al, -, ha, hx, -⟩ := hlay.place
  have hcs := hlay.inRange.aaSse
  rw [a2xSource_congr (hinv.mem_slot hlay)]
  cases hind : p.1.indirect with
  | true =>
    rw [a2xSource_pointer ha hx hind]
    obtain ⟨hf, hs⟩ := hptr hind k hk
    exact hinv.mem _ hf fun hu => hs (hu.state hcs)
  | false =>
    refine hinv.mem_own hcs (fun offset info hloc => (hlay.stack hloc).2.trans hlay.aaFits) hind ?_
    exact a2xSource_own ha hx hind (by rw [← ha.size_eq]; exact hk)

section Loop
variable {L : EnvLayout} (E : BridgeExternals) (S : A2xSite L) (m₀ : Mem)

def a2xSteps : Steps State Counters Placement where
  Lay c p c' := Laid (fun _ => True) S.aaBytes S.frame c p c' ∧ S.Pointee m₀ p.1
  step p s := (a2xArg L p.1 p.2).bind fun code => run E code s
  Inv := A2xInv S m₀
  Agree c s s' := AgreeBelow c.2 (a2xHostView s) (a2xHostView s')
  agree_refl c s := AgreeBelow.refl c.2 _
  agree_trans h₁ h₂ := h₁.trans h₂
  agree_mono h ha := ha.mono h.1.mono.2.2.2.1 h.1.mono.2.2.2.2.1 h.1.mono.2.2.2.2.2
  step_keeps := by
    intro c p c₁ s s₁ hlay hinv hstep
    obtain ⟨code, hcode, -, hspec⟩ := a2xArg_spec E hlay.1 hlay.2 hinv
    rw [hcode] at hstep
    have h := hspec s₁ hstep
    exact ⟨h.inv, h.agree⟩

variable {E S m₀} {c c' : Counters} {ps : List Placement} {s : State}

/-- The loop's code exists, and running it is running the arguments one by one. -/
theorem a2xArgs_eq_run (hchain : Chain (a2xSteps E S m₀).Lay c ps c') (hinv : A2xInv S m₀ c s) :
    ∃ code, a2xArgs L (ps.map Prod.fst) (ps.map Prod.snd) = some code ∧
      ∀ u, run E code u = (a2xSteps E S m₀).run ps u := by
  induction hchain with
  | nil c => exact ⟨[], rfl, fun u => rfl⟩
  | cons head tail ih =>
    obtain ⟨code, hcode, -⟩ := a2xArg_spec E head.1 head.2 hinv
    obtain ⟨rest, hrest, hrun⟩ := ih (hinv.next head.1.mono.2.1 rfl rfl fun _ _ _ => rfl)
    refine ⟨code ++ rest, ?_, fun u => ?_⟩
    · rw [List.map_cons, List.map_cons, a2xArgs, hcode, bind_some, hrest]
      rfl
    · rw [run_append, Steps.run]
      change (run E code u).bind (run E rest) = ((a2xArg L _ _).bind fun code => run E code u).bind _
      rw [hcode, bind_some]
      exact congrArg _ (funext hrun)

theorem a2xRun_ne_none_iff (hchain : Chain (a2xSteps E S m₀).Lay c ps c') (hinv : A2xInv S m₀ c s) :
    (a2xSteps E S m₀).run ps s ≠ none ↔ ∀ p ∈ ps, PiecesAligned L p.1 p.2 := by
  refine Steps.run_ne_none_iff _ (fun {c p c₁ u} hlay hu => ?_) hchain hinv
  obtain ⟨code, hcode, halign, -⟩ := a2xArg_spec E hlay.1 hlay.2 hu
  rw [← halign]
  change (a2xArg L p.1 p.2).bind (fun code => run E code u) ≠ none ↔ _
  rw [hcode, bind_some]

/-- After the loop every argument's place holds what the code read for it. -/
theorem a2xRun_hostHolds (hchain : Chain (a2xSteps E S m₀).Lay c ps c') (hinv : A2xInv S m₀ c s)
    {s' : State} (hrun : (a2xSteps E S m₀).run ps s = some s') {p : Placement} (hp : p ∈ ps) :
    HostHolds (a2xHostView s') p.2 fun k => m₀ (a2xSource L S.env S.sp m₀ p.1 p.2 k) := by
  obtain ⟨c₁, c₂, s₁, s₂, hlay, hinv₁, hstep, hagree⟩ := Steps.exists_step_of_mem _ hchain hinv hrun hp
  obtain ⟨code, hcode, -, hspec⟩ := a2xArg_spec E hlay.1 hlay.2 hinv₁
  change (a2xArg L p.1 p.2).bind (fun code => run E code s₁) = some s₂ at hstep
  rw [hcode, bind_some] at hstep
  obtain ⟨t, al, -, ha, hx, -⟩ := hlay.1.place
  refine HostHolds.of_agreeBelow hx hagree (HostHolds.congr hx (fun k hk => ?_) (hspec s₂ hstep).holds)
  exact a2xSource_kept hlay.1 hlay.2 hinv₁ (by rw [ha.size_eq]; exact hk)

end Loop

end Iqemu64
