import Iqemu64.X2aSplit

/-!
# Delivery by the host-to-guest code
-/

namespace Iqemu64
open ByteMemory X64 StepChain

section Argument
variable {L : EnvLayout} (E : BridgeExternals) {S : X2aSite L} {m₀ : Mem} {c c' : Counters}
  {p : Placement} {s : State}

theorem X2aSite.own_vector {j : ℕ} (hj : c.1.ssecount ≤ j) (hj8 : j < 8) {b : ℕ}
    (hlo : S.env + (L.zregs + 256 * j) ≤ b) (hhi : b < S.env + (L.zregs + 256 * j) + 16) :
    S.Own c.1 b := Or.inr (Or.inl ⟨j, hj, hj8, hlo, hhi⟩)

theorem x2aArg_spec (hlay : Laid (fun _ => True) S.aaBytes S.xxBytes c p c') (hinv : X2aInv S m₀ s) :
    X2aArgSpec E S c p s := by
  obtain ⟨a, x⟩ := p
  obtain ⟨al', xl'⟩ := c'
  obtain ⟨t, al, -, ha, hx, hal⟩ := hlay.place
  have hpos := t.size_pos
  have hoff := memOffset_ge c.1 t
  have hfitA : al.stackOffset ≤ S.aaBytes := by
    have h := hlay.aaFits
    rcases hal with hal | hal <;> rw [hal] at h <;> exact h
  have hfitX : xl'.bytes ≤ S.xxBytes := hlay.xxFits
  have hbytes : c.2.bytes ≤ S.xxBytes := hlay.mono.2.2.2.2.2.trans hlay.xxFits
  simp only at ha hx
  have hplaced := ha
  cases ha with
  | vector hv hfit =>
    rename_i elems width
    obtain ⟨h1, h4, hwidth, hsize⟩ := FlatType.vector_spec hv
    cases hx with
    | regs hfits =>
      by_cases hone : width = 8 ∨ elems = 1
      · have hcount : elems = (t.size + 7) / 8 := by
          rw [hsize]
          rcases hone with rfl | rfl <;> omega
        refine x2aArgSpec_oneByOne E hinv hfits hplaced rfl rfl hbytes
          (teNumOfReg_aaInRegs.trans hcount) (vector_words hv hone _) (fun h8 => ?_)
          fun j hj wide _ b hlo hhi => ?_
        · rw [teGetReg_aaInRegs (by omega), teGetReg_aaInRegs (by omega)]
          simp only [a64Enum2Offset]
          omega
        · rw [teGetReg_aaInRegs (by omega)] at hlo hhi
          refine X2aSite.own_vector (Nat.le_add_right _ j) (by omega) hlo (lt_of_lt_of_le hhi ?_)
          simp only [a64Enum2Offset]
          split_ifs <;> omega
      · obtain rfl : width = 4 := by omega
        exact x2aArgSpec_split E hinv hfits hv (by omega) hfit
    | stack =>
      refine x2aArgSpec_fromStack E hinv hplaced hfitX h1 (w := width) (by omega) (by omega) ?_ ?_ ?_
        (fun i j hij => ?_) fun j hj b hlo hhi => ?_
      · rw [hsize, Nat.mul_comm]
      · rw [hsize]
        rcases hwidth with rfl | rfl <;> omega
      · rw [hsize]
        exact regStride_vector h1
      · simp only [a64Enum2Offset]
        omega
      · exact X2aSite.own_vector (Nat.le_add_right _ j) (by omega) hlo (by
          simp only [a64Enum2Offset] at hhi; omega)
  | general hv h16 hfit =>
    cases hx with
    | regs hfits =>
      refine x2aArgSpec_oneByOne E hinv hfits hplaced rfl rfl hbytes teNumOfReg_aaInRegs
        (fun k hk => general_words hk) (fun h8 => ?_) fun j hj wide heven b hlo hhi => Or.inl ?_
      · rw [teGetReg_aaInRegs (by omega), teGetReg_aaInRegs (by omega)]
        simp only [a64Enum2Offset]
        omega
      · -- a wide store starts at an even register
        rw [teGetReg_aaInRegs hj] at heven hlo hhi
        simp only [a64Enum2Offset] at heven hlo hhi
        split_ifs at hhi with hw
        · have := heven hw
          omega
        · omega
    | stack =>
      refine x2aArgSpec_fromStack E hinv hplaced hfitX (by omega) (w := 8) (by norm_num) le_rfl
        (by omega) (by omega) (regStride_general (by omega)) (fun i j hij => ?_)
        fun j hj b hlo hhi => Or.inl ?_
      · simp only [a64Enum2Offset]
        omega
      · simp only [a64Enum2Offset] at hlo hhi
        omega
  | pointer hv h16 hfit =>
    cases hx with
    | regs hfits => exact absurd hfits.size (by omega)
    | stack =>
      have hslot : ABIArgInfo.slotAddr L S.env S.sp { aaInRegs .x c.1.gprcount 1 t.size with
          indirect := true } = S.env + 8 * c.1.gprcount := rfl
      refine x2aArgSpec_pointer E hinv .rdi (8 * c.1.gprcount) hplaced rfl (by decide)
        rfl (by rw [hinv.rdi, hslot]) hfitX (fun b hlo hhi => Or.inl ?_) fun k => ?_
      · rw [hslot] at hlo hhi
        omega
      · change S.stack + _ + 8 * (k / 8) + k % 8 = _
        omega
  | stackVector hv =>
    cases hx with
    | regs hfits => exact x2aArgSpec_toStack E hinv hfits hplaced hoff hfitA hbytes
    | stack => exact x2aArgSpec_copy E hinv hoff hfitA hfitX
  | stackGeneral hv h16 =>
    cases hx with
    | regs hfits => exact x2aArgSpec_toStack E hinv hfits hplaced hoff hfitA hbytes
    | stack => exact x2aArgSpec_copy E hinv hoff hfitA hfitX
  | stackPointer hv h16 =>
    cases hx with
    | regs hfits => exact absurd hfits.size (by omega)
    | stack =>
      have hslot : ABIArgInfo.slotAddr L S.env S.sp { aaOnStack (c.1.memOffset t.alignment) t.size with
          indirect := true } = S.sp + c.1.memOffset t.alignment := rfl
      simp only at hfitA
      refine x2aArgSpec_pointer E hinv .r10 (c.1.memOffset t.alignment) hplaced rfl
        (by decide) rfl (by rw [hinv.r10, hslot]) hfitX (fun b hlo hhi => Or.inr (Or.inr ?_))
        fun k => rfl
      rw [hslot] at hlo hhi
      omega

end Argument

section Loop
variable {L : EnvLayout} (E : BridgeExternals) (S : X2aSite L) (m₀ : Mem)

def x2aSteps : Steps State Counters Placement where
  Lay := Laid (fun _ => True) S.aaBytes S.xxBytes
  step p s := (x2aArg L p.1 p.2).bind fun code => run E code s
  Inv _ := X2aInv S m₀
  Agree c s s' := ∀ a, S.Below c.1 a → s'.mem a = s.mem a
  agree_refl _ _ _ _ := rfl
  agree_trans h₁ h₂ a ha := (h₂ a ha).trans (h₁ a ha)
  agree_mono h ha a hb := ha a (hb.mono h.mono.1 h.mono.2.1 h.mono.2.2.1)
  step_keeps := by
    intro c p c₁ s s₁ hlay hinv hstep
    obtain ⟨code, hcode, -, hspec⟩ := x2aArg_spec E hlay hinv
    rw [hcode] at hstep
    have h := hspec s₁ hstep
    refine ⟨h.inv hinv, fun a ha => h.out a (ha.not_own hlay.inRange.aaGpr hlay.inRange.aaSse ?_)⟩
    exact hlay.mono.2.2.1.trans hlay.aaFits

variable {E S m₀} {c c' : Counters} {ps : List Placement} {s : State}

/-- The loop's code exists, and running it is running the arguments one by one. -/
theorem x2aArgs_eq_run (hchain : Chain (x2aSteps E S m₀).Lay c ps c') (hinv : X2aInv S m₀ s) :
    ∃ code, x2aArgs L (ps.map Prod.fst) (ps.map Prod.snd) = some code ∧
      ∀ u, run E code u = (x2aSteps E S m₀).run ps u := by
  induction hchain with
  | nil c => exact ⟨[], rfl, fun u => rfl⟩
  | cons head tail ih =>
    obtain ⟨code, hcode, -⟩ := x2aArg_spec E head hinv
    obtain ⟨rest, hrest, hrun⟩ := ih
    refine ⟨code ++ rest, ?_, fun u => ?_⟩
    · rw [List.map_cons, List.map_cons, x2aArgs, hcode, Option.bind_some, hrest]
      rfl
    · rw [run_append, Steps.run]
      change (run E code u).bind (run E rest) = ((x2aArg L _ _).bind fun code => run E code u).bind _
      rw [hcode, Option.bind_some]
      exact congrArg _ (funext hrun)

theorem x2aRun_ne_none_iff (hchain : Chain (x2aSteps E S m₀).Lay c ps c') (hinv : X2aInv S m₀ s) :
    (x2aSteps E S m₀).run ps s ≠ none ↔ ∀ p ∈ ps, PiecesAligned L p.1 p.2 := by
  refine Steps.run_ne_none_iff _ (fun {c p c₁ u} hlay hu => ?_) hchain hinv
  obtain ⟨code, hcode, halign, -⟩ := x2aArg_spec E hlay hu
  rw [← halign]
  change (x2aArg L p.1 p.2).bind (fun code => run E code u) ≠ none ↔ _
  rw [hcode, Option.bind_some]

/-- The change to variadic arguments only takes the remaining registers away. -/
theorem Laid.al_le {Q : FlatType → Prop} {aaBytes xxBytes : ℕ} {c c' : Counters} {p : Placement}
    (hlay : Laid Q aaBytes xxBytes c p c') {t : FlatType} {al : AaAlloc} (ha : AaPlaced t c.1 p.1 al)
    (hal : c'.1 = al ∨ c'.1 = al.enterVariadic) :
    al.gprcount ≤ c'.1.gprcount ∧ al.ssecount ≤ c'.1.ssecount ∧
      al.stackOffset = c'.1.stackOffset := by
  have := ha.le hlay.inRange.aaGpr hlay.inRange.aaSse
  rcases hal with hal | hal <;> rw [hal]
  · exact ⟨le_rfl, le_rfl, rfl⟩
  · exact ⟨this.2.2.2.1, this.2.2.2.2, rfl⟩

/-- The guest's bytes of an argument are below the counters that follow it. -/
theorem guestAddr_below {p : Placement} (hlay : Laid (fun _ => True) S.aaBytes S.xxBytes c p c')
    (hind : p.1.indirect = false) (m : Mem) {k : ℕ} (hk : k < p.1.size) :
    S.Below c'.1 (p.1.guestAddr L S.env S.sp m k) := by
  obtain ⟨a, x⟩ := p
  obtain ⟨t, al, -, ha, -, hal⟩ := hlay.place
  have hle := hlay.al_le ha hal
  simp only at ha hind hk ⊢
  have hk' : k < t.size := by rwa [ha.size_eq] at hk
  cases ha with
  | vector hv hfit =>
    rename_i elems width
    obtain ⟨-, -, hwidth, hsize⟩ := FlatType.vector_spec hv
    simp only [hsize] at hk' hle ⊢
    rw [guestAddr_vector (by omega) hk']
    refine Or.inr (Or.inl ⟨c.1.ssecount + k / width, ?_, by omega, ?_⟩)
    · rcases hwidth with rfl | rfl <;> omega
    · rcases hwidth with rfl | rfl <;> omega
  | general hv h16 hfit =>
    simp only at hle
    rw [guestAddr_general (by omega)]
    exact Or.inl ⟨by omega, by omega⟩
  | stackVector hv | stackGeneral hv h16 =>
    refine Or.inr (Or.inr ?_)
    simp only [ABIArgInfo.guestAddr, Bool.false_eq_true, if_false] at hle ⊢
    omega
  | pointer hv h16 hfit | stackPointer hv h16 => cases hind

theorem slotAddr_below {p : Placement} (hlay : Laid (fun _ => True) S.aaBytes S.xxBytes c p c')
    (hind : p.1.indirect = true) {k : ℕ} (hk : k < 8) :
    S.Below c'.1 (p.1.slotAddr L S.env S.sp + k) := by
  obtain ⟨a, x⟩ := p
  obtain ⟨t, al, -, ha, -, hal⟩ := hlay.place
  have hle := hlay.al_le ha hal
  simp only at ha hind
  cases ha with
  | pointer hv h16 hfit =>
    simp only at hle
    refine Or.inl ?_
    change _ ≤ S.env + 8 * c.1.gprcount + k ∧ S.env + 8 * c.1.gprcount + k < _
    omega
  | stackPointer hv h16 =>
    simp only at hle
    refine Or.inr (Or.inr ?_)
    change _ ≤ S.sp + c.1.memOffset t.alignment + k ∧ S.sp + c.1.memOffset t.alignment + k < _
    omega
  | _ => cases hind

/-- After the loop every guest place holds what the code read for its argument. -/
theorem x2aRun_guestByte (hchain : Chain (x2aSteps E S m₀).Lay c ps c') (hinv : X2aInv S m₀ s)
    {s' : State} (hrun : (x2aSteps E S m₀).run ps s = some s') {p : Placement} (hp : p ∈ ps)
    {k : ℕ} (hk : k < p.1.size) :
    p.1.guestByte L S.env S.sp s'.mem k = m₀ (x2aSource S.ctx S.stack p.1 p.2 k) := by
  obtain ⟨c₁, c₂, s₁, s₂, hlay, hinv₁, hstep, hagree⟩ := Steps.exists_step_of_mem _ hchain hinv hrun hp
  obtain ⟨code, hcode, -, hspec⟩ := x2aArg_spec E hlay hinv₁
  change (x2aArg L p.1 p.2).bind (fun code => run E code s₁) = some s₂ at hstep
  rw [hcode, Option.bind_some] at hstep
  have hdone := hspec s₂ hstep
  obtain ⟨t, al, -, ha, hx, -⟩ := hlay.place
  have hsource : ¬ S.Own {} (x2aSource S.ctx S.stack p.1 p.2 k) :=
    (x2aSource_source ha hx hlay.xxFits (by rw [← ha.size_eq]; exact hk)).not_own
  unfold ABIArgInfo.guestByte
  cases hind : p.1.indirect with
  | false =>
    rw [guestAddr_congr (m := s₂.mem) fun h => absurd h (by simp [hind]),
      hagree _ (guestAddr_below hlay hind s₂.mem hk), hdone.holds k hk]
    exact hinv₁.mem _ hsource
  | true =>
    have hslot : p.1.guestAddr L S.env S.sp s'.mem = p.1.guestAddr L S.env S.sp s₂.mem :=
      guestAddr_congr fun _ i hi => hagree _ (slotAddr_below hlay hind hi)
    rw [hslot, hdone.pointer hind k]
    exact (Steps.run_keeps _ hchain hinv hrun).1.mem _ hsource

end Loop

end Iqemu64
