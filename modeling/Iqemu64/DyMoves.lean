import Iqemu64.DyEntry

/-!
# Copies of the dynamic translation

`DyMoves` says that a list of copies brings an argument to its place in the fake registers or on the
fake stack, and that it stays inside the part of them that the x86-64 counters give the argument.
-/

namespace Iqemu64
open ByteMemory List ABIArgInfo

theorem x64Enum2Ptr_xxGpr {g : ℕ} (hg : g < 6) : x64Enum2Ptr (xxGpr g) = 8 * g := by
  interval_cases g <;> rfl

theorem dyToReg_slot (argSpace : ℕ) (x : XReg) (src : ℕ) {size : ℕ} (info : LocInfo)
    (h : 8 ≤ size) : (dyToReg argSpace x src size info).slot = size := by
  by_cases hw : info.widening = none
  · exact Move.slot_of_none hw
  · rw [Move.slot_of_ne_none hw]
    exact max_eq_left (by change 4 ≤ size; omega)

def DyOwn (argSpace : ℕ) (xl xl' : XxAlloc) (a : ℕ) : Prop :=
  (argSpace + 8 * xl.gprcount ≤ a ∧ a < argSpace + 8 * xl'.gprcount ∧ a < argSpace + 48) ∨
    (argSpace + 48 + 16 * xl.ssecount ≤ a ∧ a < argSpace + 48 + 16 * xl'.ssecount ∧
      a < argSpace + 176) ∨
    (argSpace + registerArgsSize + ffiAlign xl.bytes 8 ≤ a ∧
      a < argSpace + registerArgsSize + ffiAlign xl'.bytes 8)

section Frame
variable {argSpace : ℕ} {xl xl' : XxAlloc} {m m' : Mem}

theorem agreeBelow_of_dyOwn (hg : xl.gprcount ≤ 6) (hs : xl.ssecount ≤ 8)
    (h : ∀ a, ¬ DyOwn argSpace xl xl' a → m' a = m a) :
    AgreeBelow xl (dyHostView argSpace m) (dyHostView argSpace m') := by
  have hsize : registerArgsSize = 184 := rfl
  refine ⟨fun g hlt k hk => h _ ?_, fun v hlt k hk => h _ ?_, fun o ho => h _ ?_⟩
  · rw [x64Enum2Ptr_xxGpr (by omega)]
    unfold DyOwn
    omega
  · simp only [x64Enum2Ptr]
    unfold DyOwn
    omega
  · unfold DyOwn
    omega

theorem RegBetween.covers {x : XReg} {info info' : LocInfo} {src size a : ℕ}
    (h : RegBetween xl xl' x info) (hsize : size = 8 ∨ (x.isXmm = true ∧ size = 16))
    (ha : (dyToReg argSpace x src size info').Covers a) : DyOwn argSpace xl xl' a := by
  unfold Move.Covers at ha
  rw [dyToReg_slot _ _ _ _ (by omega)] at ha
  simp only [dyToReg] at ha
  unfold DyOwn
  rcases h with ⟨i, h₁, h₂, h₃, rfl⟩ | ⟨i, h₁, h₂, h₃, rfl, rfl⟩
  · rw [x64Enum2Ptr_xxGpr h₃] at ha
    have h8 : size = 8 := by simpa [isXmm_xxGpr i] using hsize
    omega
  · simp only [x64Enum2Ptr] at ha
    omega

theorem dyToReg_disjoint {x x' : XReg} {info info' i₁ i₂ : LocInfo} {s₁ n₁ s₂ n₂ a : ℕ}
    (h : RegBetween xl xl' x i₁) (h' : RegBetween xl xl' x' i₂) (hne : x ≠ x')
    (hn₁ : n₁ = 8 ∨ (x.isXmm = true ∧ n₁ = 16)) (hn₂ : n₂ = 8 ∨ (x'.isXmm = true ∧ n₂ = 16))
    (ha : (dyToReg argSpace x s₁ n₁ info).Covers a) :
    ¬ (dyToReg argSpace x' s₂ n₂ info').Covers a := by
  intro ha'
  -- each cover lies in the one-register interval of its own register
  have one : ∀ {x : XReg} {i j : LocInfo} {s n : ℕ}, RegBetween xl xl' x i →
      (n = 8 ∨ (x.isXmm = true ∧ n = 16)) → (dyToReg argSpace x s n j).Covers a →
      (∃ g < 6, x = xxGpr g ∧ argSpace + 8 * g ≤ a ∧ a < argSpace + 8 * g + 8) ∨
        ∃ v, x = .xmm v ∧ argSpace + 48 + 16 * v ≤ a ∧ a < argSpace + 48 + 16 * v + 16 := by
    intro x i j s n hx hn hc
    rcases hx with ⟨g, -, -, hg, rfl⟩ | ⟨v, -, -, -, rfl, -⟩
    · have hb : RegBetween { gprcount := g } { gprcount := g + 1 } (xxGpr g) i :=
        Or.inl ⟨g, le_rfl, Nat.lt_succ_self g, hg, rfl⟩
      have := hb.covers hn hc
      simp only [DyOwn] at this
      exact Or.inl ⟨g, hg, rfl, by omega⟩
    · unfold Move.Covers at hc
      rw [dyToReg_slot _ _ _ _ (by omega)] at hc
      simp only [dyToReg, x64Enum2Ptr] at hc
      exact Or.inr ⟨v, rfl, by omega⟩
  rcases one h hn₁ ha with ⟨g, hg, rfl, h₁⟩ | ⟨v, rfl, h₁⟩ <;>
    rcases one h' hn₂ ha' with ⟨g', hg', rfl, h₂⟩ | ⟨v', rfl, h₂⟩
  · exact hne (by rw [show g = g' by omega])
  · omega
  · omega
  · exact hne (by rw [show v = v' by omega])

end Frame

def dyHostAddr (argSpace : ℕ) (x : ABIArgInfo XReg) (k : ℕ) : ℕ :=
  match x.loc with
  | .regs _ => argSpace + (x.teGetReg (k / 8)).elim 0 x64Enum2Ptr + k % 8
  | .mem offset _ => argSpace + registerArgsSize + offset + k

structure DyMoves (argSpace : ℕ) (t : FlatType) (xl xl' : XxAlloc) (x : ABIArgInfo XReg)
    (addr : ℕ → ℕ) (mvs : List Move) : Prop where
  own : ∀ mv ∈ mvs, ∀ a, mv.Covers a → DyOwn argSpace xl xl' a
  disjoint : mvs.Pairwise fun p q => ∀ a, p.Covers a → ¬ q.Covers a
  byte : t.locInfo.widening = none → ∀ k < t.size, ∃ mv ∈ mvs, ∃ i < mv.size,
    mv.widening = none ∧ mv.dst + i = dyHostAddr argSpace x k ∧ mv.src + i = addr k
  wide : ∀ signed width, t.locInfo.widening = some (signed, width) → ∃ mv ∈ mvs,
    mv.widening = some (signed, width) ∧ width ≤ mv.size ∧
      (∀ k < 4, mv.dst + k = dyHostAddr argSpace x k) ∧ ∀ i < width, mv.src + i = addr i

section Holds
variable {argSpace xxBytes : ℕ} {t : FlatType} {xl xl' : XxAlloc} {x : ABIArgInfo XReg}
  {addr : ℕ → ℕ} {mvs : List Move} {m m₀ : Mem}

def DyArea (argSpace xxBytes a : ℕ) : Prop :=
  argSpace ≤ a ∧ a < argSpace + registerArgsSize + ffiAlign xxBytes 8

theorem DyOwn.area {a : ℕ} (h : DyOwn argSpace xl xl' a) (hb : xl'.bytes ≤ xxBytes) :
    DyArea argSpace xxBytes a := by
  have hsize : registerArgsSize = 184 := rfl
  unfold DyOwn at h
  unfold DyArea
  simp only [ffiAlign_eight] at h ⊢
  omega

theorem hostByte_dyHostView (hx : XxPlaced t xl x xl') {k : ℕ} (hk : k < ffiAlign t.size 8) :
    x.hostByte (dyHostView argSpace m) k = m (dyHostAddr argSpace x k) := by
  rw [ffiAlign_eight] at hk
  cases hx with
  | regs hfits =>
    obtain ⟨r, hr, -⟩ := hfits.teGetReg (show k / 8 < (t.size + 7) / 8 by omega)
    simp only [hostByte, dyHostAddr, hr, Option.elim_some]
    rfl
  | stack =>
    simp only [hostByte, dyHostAddr, dyHostView]
    rw [Nat.add_assoc (argSpace + registerArgsSize)]

theorem DyMoves.holds (h : DyMoves argSpace t xl xl' x addr mvs) (hx : XxPlaced t xl x xl')
    (hb : xl'.bytes ≤ xxBytes) (hm : ∀ a, ¬ DyArea argSpace xxBytes a → m a = m₀ a)
    (haddr : ∀ k < t.size, ¬ DyArea argSpace xxBytes (addr k)) :
    HostHolds (dyHostView argSpace (runMoves mvs m)) x fun k => m₀ (addr k) := by
  have hpos := t.size_pos
  have hal := ffiAlign_eight t.size
  -- what a source byte is when its move runs
  have hread : ∀ {m' : Mem}, (∀ a, (∀ q ∈ mvs, ¬ q.Covers a) → m' a = m a) → ∀ k < t.size,
      m' (addr k) = m₀ (addr k) := by
    intro m' hm' k hk
    rw [hm' _ fun q hq hc => haddr k hk ((h.own q hq _ hc).area hb)]
    exact hm _ (haddr k hk)
  unfold HostHolds
  rw [hx.widening_eq]
  cases hw : t.locInfo.widening with
  | none =>
    intro k hk
    rw [hx.size_eq] at hk
    obtain ⟨mv, hmv, i, hi, hnone, hdst, hsrc⟩ := h.byte hw k hk
    have hcov : mv.Covers (mv.dst + i) := by
      unfold Move.Covers
      rw [Move.slot_of_none hnone]
      omega
    obtain ⟨m', hm', hrun⟩ := runMoves_of_mem h.disjoint hmv hcov m
    rw [hostByte_dyHostView hx (by omega), ← hdst, hrun,
      mv.run_inside m' hi (Or.inl hnone), hsrc]
    exact hread hm' k hk
  | some w =>
    obtain ⟨signed, width⟩ := w
    obtain ⟨hsize, hwidth, -⟩ := FlatType.locInfo_widening hw
    obtain ⟨mv, hmv, hwid, hle, hdst, hsrc⟩ := h.wide signed width hw
    have hsound : mv.Sound := by
      intro sg wd hs
      obtain ⟨rfl, rfl⟩ := Prod.mk.inj (Option.some.inj (hwid.symm.trans hs))
      exact ⟨hwidth, hle⟩
    intro k hk
    have hcov : mv.Covers (mv.dst + k) := by
      unfold Move.Covers
      rw [Move.slot_of_ne_none (by rw [hwid]; simp)]
      omega
    obtain ⟨m', hm', hrun⟩ := runMoves_of_mem h.disjoint hmv hcov m
    rw [hostByte_dyHostView hx (by omega), ← hdst k hk, hrun,
      mv.run_widened m' hsound hwid hk]
    apply extendBytes_congr signed width _ _ (by omega)
    intro i hi
    rw [hsrc i hi]
    exact hread hm' i (by omega)

end Holds

section Cases
variable {argSpace : ℕ} {t : FlatType} {xl : XxAlloc} {addr : ℕ → ℕ}

def dyPieceMove (argSpace : ℕ) (src : ℕ → ℕ) (size : XReg → ℕ) (p : (XReg × LocInfo) × ℕ) : Move :=
  dyToReg argSpace p.1.1 (src p.2) (size p.1.1) (if p.1.1.isXmm then .noLocInfo else p.1.2)

theorem dyMoves_regs (src : ℕ → ℕ) (size : XReg → ℕ) (hfits : t.XxFits xl)
    (hsize : ∀ x : XReg, size x = 8 ∨ (x.isXmm = true ∧ size x = 16))
    (hsrc : ∀ k < t.size, src (k / 8) + k % 8 = addr k) :
    DyMoves argSpace t xl (t.xxAfterRegs xl) (t.xxInRegs xl) addr
      ((xxPieces t.locInfo t.classes xl.gprcount xl.ssecount).zipIdx.map
        (dyPieceMove argSpace src size)) := by
  have hg := hfits.gpr
  have hlen : (xxPieces t.locInfo t.classes xl.gprcount xl.ssecount).length = (t.size + 7) / 8 := by
    rw [xxPieces_length, FlatType.classes_length_of_le hfits.size]
  refine ⟨?_, ?_, ?_, ?_⟩
  · intro mv hmv a ha
    obtain ⟨p, hp, rfl⟩ := mem_map.mp hmv
    have hmem := mem_of_getElem? (mem_zipIdx_iff_getElem?.mp hp)
    exact (regBetween_of_mem hfits hmem).covers (hsize _) ha
  · rw [pairwise_map]
    have hne := xxPieces_pairwise t.locInfo t.classes xl.gprcount xl.ssecount
      (by rw [t.countP_not_isSse]; exact hg)
    rw [← zipIdx_map_fst 0 (xxPieces t.locInfo t.classes xl.gprcount xl.ssecount),
      pairwise_map] at hne
    refine hne.imp_of_mem fun {p q} hp hq hpq a ha => ?_
    have hp' := mem_of_getElem? (mem_zipIdx_iff_getElem?.mp hp)
    have hq' := mem_of_getElem? (mem_zipIdx_iff_getElem?.mp hq)
    exact dyToReg_disjoint (regBetween_of_mem hfits hp') (regBetween_of_mem hfits hq') hpq
      (hsize _) (hsize _) ha
  · intro hw k hk
    have hj : k / 8 < (xxPieces t.locInfo t.classes xl.gprcount xl.ssecount).length := by omega
    obtain ⟨p, hp⟩ : ∃ p, (xxPieces t.locInfo t.classes xl.gprcount xl.ssecount)[k / 8]? = some p :=
      ⟨_, getElem?_eq_getElem hj⟩
    refine ⟨_, mem_map.mpr ⟨(p, k / 8), mem_zipIdx_iff_getElem?.mpr hp, rfl⟩, k % 8, ?_,
      ?_, ?_, hsrc k hk⟩
    · have := hsize p.1
      change k % 8 < size p.1
      omega
    · rcases mem_xxPieces (mem_of_getElem? hp) with ⟨i, -, -, rfl⟩ | ⟨i, -, -, rfl⟩
      · simp only [dyPieceMove, dyToReg]
        split_ifs
        · rfl
        · exact hw
      · rfl
    · simp only [dyHostAddr, teGetReg, regs, getElem?_map, hp]
      rfl
  · intro signed width hw
    obtain ⟨hsz, hwidth, hcs⟩ := FlatType.locInfo_widening hw
    have hpieces : xxPieces t.locInfo t.classes xl.gprcount xl.ssecount =
        [(xxGpr xl.gprcount, t.locInfo)] := by rw [hcs]; rfl
    have hlt : xl.gprcount < 6 := by
      rw [hcs] at hg
      exact hg
    rw [hpieces]
    refine ⟨_, mem_singleton.mpr rfl, ?_, ?_, ?_, ?_⟩
    · simp only [dyPieceMove, dyToReg, isXmm_xxGpr xl.gprcount]
      exact hw
    · have := hsize (xxGpr xl.gprcount)
      change width ≤ size (xxGpr xl.gprcount)
      omega
    · intro k hk
      simp only [dyHostAddr, teGetReg, regs, hpieces,
        Nat.div_eq_of_lt (show k < 8 by omega), Nat.mod_eq_of_lt (show k < 8 by omega)]
      rfl
    · intro i hi
      have := hsrc i (by omega)
      rw [Nat.div_eq_of_lt (by omega), Nat.mod_eq_of_lt (by omega)] at this
      exact this

theorem dyToStack_covers {off src size a : ℕ} {info : LocInfo}
    (ha : (dyToStack argSpace off src size info).Covers a) :
    argSpace + registerArgsSize + off ≤ a ∧
      a < argSpace + registerArgsSize + off + max size 4 ∧
      (info.widening = none → a < argSpace + registerArgsSize + off + size) := by
  obtain ⟨hlo, hhi⟩ := ha
  have hsize : (dyToStack argSpace off src size info).size = size := rfl
  have hdst : (dyToStack argSpace off src size info).dst = argSpace + registerArgsSize + off := rfl
  by_cases hw : info.widening = none
  · rw [Move.slot_of_none hw] at hhi
    exact ⟨hlo, by omega, fun _ => by omega⟩
  · rw [Move.slot_of_ne_none hw] at hhi
    exact ⟨hlo, by omega, fun h => absurd h hw⟩

theorem dyMoves_stackRegs (as : List AReg) (src : AReg → ℕ) (hlen : as.length = (t.size + 7) / 8)
    (hsrc : ∀ k < t.size, ∃ a, as[k / 8]? = some a ∧ src a + k % 8 = addr k) :
    DyMoves argSpace t xl (t.xxAfterStack xl) (t.xxOnStack xl) addr
      (as.zipIdx.map fun p =>
        dyToStack argSpace (ffiAlign xl.bytes 8 + 8 * p.2) (src p.1) 8 t.locInfo) := by
  have hpos := t.size_pos
  refine ⟨?_, ?_, ?_, ?_⟩
  · intro mv hmv a ha
    obtain ⟨p, hp, rfl⟩ := mem_map.mp hmv
    have hj : p.2 < as.length := (List.getElem?_eq_some_iff.mp (List.mem_zipIdx_iff_getElem?.mp hp)).1
    have hc := dyToStack_covers ha
    refine Or.inr (Or.inr ?_)
    simp only [ffiAlign_eight] at hc ⊢
    omega
  · rw [pairwise_map]
    have hlt : (as.zipIdx).Pairwise fun p q => p.2 < q.2 := by
      rw [← pairwise_map (f := Prod.snd) (R := (· < ·)), zipIdx_map_snd]
      exact pairwise_lt_range'
    refine hlt.imp fun {p q} hpq a ha hq => ?_
    have h₁ := dyToStack_covers ha
    have h₂ := dyToStack_covers hq
    omega
  · intro hw k hk
    obtain ⟨a, ha, haddr⟩ := hsrc k hk
    refine ⟨_, mem_map.mpr ⟨(a, k / 8), mem_zipIdx_iff_getElem?.mpr ha, rfl⟩, k % 8,
      Nat.mod_lt k (by norm_num), hw, ?_, haddr⟩
    simp only [dyToStack, dyHostAddr]
    omega
  · intro signed width hw
    obtain ⟨hsz, hwidth, -⟩ := FlatType.locInfo_widening hw
    obtain ⟨a, ha, -⟩ := hsrc 0 hpos
    refine ⟨_, mem_map.mpr ⟨(a, 0), mem_zipIdx_iff_getElem?.mpr ha, rfl⟩, hw, ?_, ?_, ?_⟩
    · change width ≤ 8
      omega
    · intro k hk
      simp only [dyToStack, dyHostAddr]
      omega
    · intro i hi
      obtain ⟨a', ha', haddr⟩ := hsrc i (by omega)
      rw [Nat.div_eq_of_lt (show i < 8 by omega)] at ha'
      rw [Nat.zero_div] at ha
      obtain rfl := Option.some.inj (ha.symm.trans ha')
      rw [← haddr, Nat.mod_eq_of_lt (show i < 8 by omega)]
      rfl

theorem dyMoves_block (src : ℕ) (info : LocInfo) (hinfo : info.widening = t.locInfo.widening)
    (hsrc : ∀ k < t.size, src + k = addr k) :
    DyMoves argSpace t xl (t.xxAfterStack xl) (t.xxOnStack xl) addr
      [dyToStack argSpace (ffiAlign xl.bytes 8) src t.size info] := by
  have hpos := t.size_pos
  refine ⟨?_, pairwise_singleton _ _, ?_, ?_⟩
  · intro mv hmv a ha
    obtain rfl := mem_singleton.mp hmv
    have hc := dyToStack_covers ha
    refine Or.inr (Or.inr ?_)
    simp only [ffiAlign_eight] at hc ⊢
    omega
  · intro hw k hk
    refine ⟨_, mem_singleton.mpr rfl, k, hk, ?_, rfl, hsrc k hk⟩
    exact hinfo.trans hw
  · intro signed width hw
    obtain ⟨hsz, hwidth, -⟩ := FlatType.locInfo_widening hw
    refine ⟨_, mem_singleton.mpr rfl, hinfo.trans hw, ?_, fun k _ => rfl, ?_⟩
    · exact hsz.ge
    · intro i hi
      exact hsrc i (by omega)

end Cases

end Iqemu64
