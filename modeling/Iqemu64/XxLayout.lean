import Iqemu64.AaLayout
import Iqemu64.XxPieces

/-!
# x86-64 layout of argument lists

The counterpart of the AArch64 layout for scalars, pointers and flat structs. An argument that does not
fit leaves the register counters as they are and takes the next stack words. The counters order the
registers and the stack ranges, and the structures hold them as long as the stack arguments stay below
`2 ^ 31` bytes.
-/

namespace Iqemu64
open StepChain List ABIArgInfo FlatType TypeTree

namespace FlatType

def tree : FlatType → TypeTree
  | scalar s => .scalar s
  | struct s ss => .aggregate ((s :: ss).map .scalar)

theorem ffis_scalars (ss : List Scalar) : ffis (ss.map .scalar) = ss.map Scalar.ffi := by
  induction ss with
  | nil => rfl
  | cons s ss ih => exact congrArg _ ih

theorem descs_scalars (ss : List Scalar) : descs (ss.map .scalar) = ss.map Scalar.ffi := by
  induction ss with
  | nil => rfl
  | cons s ss ih => exact congrArg _ ih

theorem endOffset_scalars (ss : List Scalar) (off : ℕ) :
    TypeTree.endOffset (ss.map .scalar) off = endOffset ss off := by
  induction ss generalizing off with
  | nil => rfl
  | cons s ss ih => exact ih _

theorem maxAlign_scalars (ss : List Scalar) (a : ℕ) :
    TypeTree.maxAlign (ss.map .scalar) a = maxAlign ss a := by
  induction ss generalizing a with
  | nil => rfl
  | cons s ss ih => exact ih _

theorem tree_ffi (t : FlatType) : t.tree.ffi = t.ffi := by
  cases t with
  | scalar s => rfl
  | struct s ss => exact congrArg _ (ffis_scalars (s :: ss))

theorem tree_size (t : FlatType) : t.tree.size = t.size := by
  cases t with
  | scalar s => rfl
  | struct s ss =>
    rw [tree, TypeTree.size, endOffset_scalars, maxAlign_scalars]
    rfl

theorem tree_desc (t : FlatType) : t.tree.desc = t.desc := by
  cases t with
  | scalar s => rfl
  | struct s ss =>
    have hsize := (struct s ss).tree_size
    have halign : (struct s ss).tree.alignment = (struct s ss).alignment :=
      maxAlign_scalars (s :: ss) 0
    rw [tree] at hsize halign
    rw [tree, TypeTree.desc, hsize, halign, descs_scalars]
    rfl

theorem tree_filled (t : FlatType) : t.tree.Filled := by
  cases t with
  | scalar s => trivial
  | struct s ss =>
    refine ⟨cons_ne_nil _ _, allFilled_iff.mpr fun m hm => ?_⟩
    obtain ⟨x, -, rfl⟩ := mem_map.mp hm
    trivial

theorem sizeT_initializeType {t : FlatType} (h : t.size < 2 ^ 64) :
    SizeT.initializeType t.ffi = some t.desc := by
  rw [← t.tree_ffi, ← t.tree_desc]
  exact initializeType_eq t.tree_filled (by rwa [t.tree_size])

end FlatType

/-- A flat result type, or none for `void`. -/
def flatResult : Option FlatType → ResultType
  | none => .void
  | some t => t.result

namespace SizeT

/-- `my_xx_fi_prep_cif` with type sizes in a `size_t`. -/
def myXxFiPrepCif (rtype : FfiType) (atypes : List FfiType) : Option (ABIFnInfo XReg) :=
  (initializeType rtype).bind fun rtype =>
    (atypes.mapM initializeType).bind fun atypes => myXxFiPrepCifMachdep rtype (visited atypes)

end SizeT

structure XxOrdered (p q : Placement) : Prop where
  regs : ∀ r ∈ p.2.regs, r ∉ q.2.regs
  stack : ∀ o l o' l', p.2.loc = .mem o l → q.2.loc = .mem o' l' → o + p.2.size ≤ o'

structure XxBelow (c : Counters) (p : Placement) : Prop where
  regs : ∀ r ∈ p.2.regs,
    (∃ n, n < c.2.gprcount ∧ n < 6 ∧ r = xxGpr n) ∨ ∃ n, n < c.2.ssecount ∧ r = .xmm n
  stack : ∀ o l, p.2.loc = .mem o l → o + p.2.size ≤ c.2.bytes

namespace XxPlaced

variable {t : FlatType} {xl xl' : XxAlloc} {x : ABIArgInfo XReg}

theorem regs_between (h : XxPlaced t xl x xl') {r : XReg} (hr : r ∈ x.regs) :
    ∃ info, RegBetween xl xl' r info := by
  cases h with
  | regs hfits =>
    obtain ⟨p, hp, rfl⟩ := mem_map.mp hr
    exact ⟨p.2, regBetween_of_mem hfits hp⟩
  | stack => cases hr

theorem of_mem (h : XxPlaced t xl x xl') {o : ℕ} {l : LocInfo} (ho : x.loc = .mem o l) :
    xl.bytes ≤ o ∧ o + x.size = xl'.bytes ∧ o % 8 = 0 := by
  cases h with
  | regs hfits => cases ho
  | stack =>
    obtain ⟨rfl, -⟩ := ArgLoc.mem.inj ho
    exact ⟨ffiAlign_eight_ge _, rfl, (ffiAlign_spec _ (Or.inr (Or.inr (Or.inr rfl)))).2.2⟩

theorem nodup_regs (h : XxPlaced t xl x xl') : x.regs.Nodup := by
  cases h with
  | regs hfits =>
    refine pairwise_map.mpr (xxPieces_pairwise _ _ _ _ ?_)
    rw [t.countP_not_isSse]
    exact hfits.gpr
  | stack => exact nodup_nil

theorem whole (h : XxPlaced t xl x xl') :
    x.teIsMem ∨ x.size ≤ 16 ∧ x.regs.length = (x.size + 7) / 8 := by
  cases h with
  | regs hfits => exact Or.inr ⟨hfits.size, teNumOfReg_xxInRegs hfits⟩
  | stack => exact Or.inl rfl

theorem countP_isXmm (h : XxPlaced t xl x xl') :
    xl'.ssecount = xl.ssecount + x.regs.countP XReg.isXmm := by
  cases h with
  | regs hfits =>
    suffices hall : ∀ cs g v, ((xxPieces t.locInfo cs g v).map Prod.fst).countP XReg.isXmm =
        cs.countP RegClass.isSse from congrArg _ (hall _ _ _).symm
    intro cs
    induction cs with
    | nil => exact fun _ _ => rfl
    | cons c cs ih =>
      intro g v
      rw [xxPieces, countP_cons]
      split_ifs with hc
      · rw [map_cons, countP_cons_of_pos rfl, ih]
      · rw [map_cons, countP_cons_of_neg (by rw [isXmm_xxGpr]; exact Bool.false_ne_true), ih,
          Nat.add_zero]
  | stack => rfl

end XxPlaced

section Chain
variable {Q : FlatType → Prop} {aaBytes xxBytes : ℕ} {c c' : Counters} {p q : Placement}

theorem Laid.xxBelow (h : Laid Q aaBytes xxBytes c p c') : XxBelow c' p := by
  obtain ⟨t, al, -, -, hx, -⟩ := h.place
  refine ⟨fun r hr => ?_, fun o l ho => (hx.of_mem ho).2.1.le⟩
  obtain ⟨info, ⟨n, -, hlt, h6, rfl⟩ | ⟨n, -, hlt, -, rfl, -⟩⟩ := hx.regs_between hr
  · exact Or.inl ⟨n, hlt, h6, rfl⟩
  · exact Or.inr ⟨n, hlt, rfl⟩

theorem XxBelow.step (hq : XxBelow c q) (h : Laid Q aaBytes xxBytes c p c') : XxBelow c' q := by
  obtain ⟨-, -, -, hg, hs, hb⟩ := h.mono
  refine ⟨fun r hr => ?_, fun o l ho => (hq.stack o l ho).trans hb⟩
  rcases hq.regs r hr with ⟨n, hlt, h6, rfl⟩ | ⟨n, hlt, rfl⟩
  · exact Or.inl ⟨n, hlt.trans_le hg, h6, rfl⟩
  · exact Or.inr ⟨n, hlt.trans_le hs, rfl⟩

theorem XxBelow.ordered (hq : XxBelow c q) (h : Laid Q aaBytes xxBytes c p c') : XxOrdered q p := by
  obtain ⟨t, al, -, -, hx, -⟩ := h.place
  refine ⟨fun r hr hr' => ?_, fun o l o' l' ho ho' => (hq.stack o l ho).trans (hx.of_mem ho').1⟩
  obtain ⟨info, ⟨n, hle, -, h6, hn⟩ | ⟨n, hle, -, -, hn, -⟩⟩ := hx.regs_between hr'
  · rcases hq.regs r hr with ⟨m, hlt, hm6, hm⟩ | ⟨m, hlt, hm⟩
    · have := xxGpr_injective m hm6 n h6 (hm.symm.trans hn)
      omega
    · exact xxGpr_ne_xmm n m (hn.symm.trans hm)
  · rcases hq.regs r hr with ⟨m, hlt, -, hm⟩ | ⟨m, hlt, hm⟩
    · exact xxGpr_ne_xmm m n (hm.symm.trans hn)
    · have := XReg.xmm.inj (hm.symm.trans hn)
      omega

/-- Each argument of a chain is laid out from counters that are not below the first ones. -/
theorem exists_laid_of_mem {ps : List Placement} (h : Chain (Laid Q aaBytes xxBytes) c ps c')
    (hp : p ∈ ps) : ∃ c₁ c₂, c.2.gprcount ≤ c₁.2.gprcount ∧ Laid Q aaBytes xxBytes c₁ p c₂ := by
  induction h with
  | nil c => cases hp
  | cons head tail ih =>
    rcases mem_cons.mp hp with rfl | hp
    · exact ⟨_, _, le_rfl, head⟩
    · obtain ⟨c₁, c₂, hle, hlaid⟩ := ih hp
      exact ⟨c₁, c₂, head.mono.2.2.2.1.trans hle, hlaid⟩

theorem chain_countXmm {ps : List Placement} (h : Chain (Laid Q aaBytes xxBytes) c ps c') :
    c'.2.ssecount = c.2.ssecount + (ps.flatMap fun p => p.2.regs).countP XReg.isXmm := by
  induction h with
  | nil c => rfl
  | cons head tail ih =>
    obtain ⟨t, al, -, -, hx, -⟩ := head.place
    rw [ih, hx.countP_isXmm, flatMap_cons, countP_append, Nat.add_assoc]

end Chain

/-- The order of the arguments of an x86-64 call; `inMem` says that the result is in memory. -/
structure XxLayout (inMem : Bool) (ts : List FlatType) (ainfo : List (ABIArgInfo XReg)) (bytes : ℤ)
    (ssecount : ℕ) : Prop where
  sizes : ainfo.map ABIArgInfo.size = ts.map FlatType.size
  argReg : ∀ a ∈ ainfo, ∀ r ∈ a.regs, r ∈ gprcnt2reg ∨ r ∈ ssecnt2reg
  once : (ainfo.flatMap regs).Nodup
  sret : inMem = true → .rdi ∉ ainfo.flatMap regs
  whole : ∀ a ∈ ainfo, a.teIsMem ∨ a.size ≤ 16 ∧ a.regs.length = (a.size + 7) / 8
  aligned : ∀ a ∈ ainfo, ∀ o l, a.loc = .mem o l → o % 8 = 0
  inside : ∀ a ∈ ainfo, ∀ o l, a.loc = .mem o l → ((o + a.size : ℕ) : ℤ) ≤ bytes
  disjoint : ainfo.Pairwise fun a b =>
    ∀ o l o' l', a.loc = .mem o l → b.loc = .mem o' l' → o + a.size ≤ o'
  bytes_mod : bytes % 8 = 0
  ssecount_eq : ssecount = (ainfo.flatMap regs).countP XReg.isXmm
  ssecount_le : ssecount ≤ 8

theorem xxGpr_mem {n : ℕ} (h : n < 6) : xxGpr n ∈ gprcnt2reg :=
  mem_of_getElem? (gprcnt2reg_getElem? h)

theorem placements_size (nfixed : ℕ) (ts : List FlatType) (i : ℕ) (al : AaAlloc) (xl : XxAlloc) :
    (placements nfixed ts i al xl).map (fun p => p.2.size) = ts.map FlatType.size := by
  induction ts generalizing i al xl with
  | nil => rfl
  | cons t ts ih =>
    rw [placements, map_cons, map_cons, ih]
    exact congrArg (· :: _) (xxPlaced_xxPlace t xl).size_eq

theorem Signature.xxLayout (σ : Signature) :
    XxLayout σ.xxInfo.rinfo.indirect σ.args σ.xxInfo.ainfo σ.xxInfo.bytes σ.xxInfo.ssecount := by
  have hchain : Chain (Laid (fun _ => True) σ.aaInfo.bytes σ.xxInfo.bytes) ({}, σ.xxStart) σ.places
      (aaFinal σ.nfixed σ.args 0 {}, xxFinal σ.args σ.xxStart) :=
    σ.chain (fun _ _ => trivial) le_rfl
  have hpairs : σ.places.Pairwise XxOrdered :=
    Chain.pairwise XxBelow Laid.xxBelow (fun h hq => hq.step h) (fun h hq => hq.ordered h) hchain
  have hmem : ∀ a ∈ σ.xxInfo.ainfo, ∃ t xl xl', XxPlaced t xl a xl' ∧
      σ.xxStart.gprcount ≤ xl.gprcount ∧ xl'.bytes ≤ σ.xxInfo.bytes := by
    intro a ha
    obtain ⟨p, hp, rfl⟩ := mem_map.mp ha
    obtain ⟨c₁, c₂, hle, hlaid⟩ := exists_laid_of_mem hchain hp
    obtain ⟨t, al, -, -, hx, -⟩ := hlaid.place
    exact ⟨t, c₁.2, c₂.2, hx, hle, hlaid.xxFits⟩
  have hflat : σ.xxInfo.ainfo.flatMap ABIArgInfo.regs = σ.places.flatMap fun p => p.2.regs :=
    flatMap_map _ _ _
  have hcount : σ.xxInfo.ssecount = (σ.places.flatMap fun p => p.2.regs).countP XReg.isXmm := by
    rw [← Nat.zero_add (countP _ _)]
    exact chain_countXmm hchain
  refine ⟨?_, ?_, ?_, ?_, ?_, ?_, ?_, ?_, ?_, ?_, ?_⟩
  · rw [← placements_size σ.nfixed σ.args 0 {} σ.xxStart]
    exact map_map
  · intro a ha r hr
    obtain ⟨t, xl, xl', hx, -, -⟩ := hmem a ha
    obtain ⟨info, ⟨n, -, -, h6, rfl⟩ | ⟨n, -, -, h8, rfl, -⟩⟩ := hx.regs_between hr
    · exact Or.inl (xxGpr_mem h6)
    · exact Or.inr (mem_of_getElem? (ssecnt2reg_getElem? h8))
  · refine nodup_flatMap.mpr ⟨fun a ha => ?_, ?_⟩
    · obtain ⟨t, xl, xl', hx, -, -⟩ := hmem a ha
      exact hx.nodup_regs
    · exact pairwise_map.mpr (hpairs.imp fun hpq r hr hr' => hpq.regs r hr hr')
  · intro hin hrdi
    obtain ⟨a, ha, hr⟩ := mem_flatMap.mp hrdi
    obtain ⟨t, xl, xl', hx, hle, -⟩ := hmem a ha
    have hstart : σ.xxStart.gprcount = 1 := by
      have hret : σ.ret.xxRet = .inMem := by
        cases hr : σ.ret.xxRet <;> simp [Signature.xxInfo, hr, xxRetInfo] at hin ⊢
      simp [Signature.xxStart, hret]
    obtain ⟨info, ⟨n, hge, -, h6, hn⟩ | ⟨n, -, -, -, hn, -⟩⟩ := hx.regs_between hr
    · have := xxGpr_injective 0 (by omega) n h6 hn
      omega
    · cases hn
  · intro a ha
    obtain ⟨t, xl, xl', hx, -, -⟩ := hmem a ha
    exact hx.whole
  · intro a ha o l ho
    obtain ⟨t, xl, xl', hx, -, -⟩ := hmem a ha
    exact (hx.of_mem ho).2.2
  · intro a ha o l ho
    obtain ⟨t, xl, xl', hx, -, hle⟩ := hmem a ha
    exact_mod_cast (hx.of_mem ho).2.1.le.trans hle
  · exact pairwise_map.mpr (hpairs.imp fun hpq => hpq.stack)
  · have : σ.xxInfo.bytes % 8 = 0 := (ffiAlign_spec _ (Or.inr (Or.inr (Or.inr rfl)))).2.2
    omega
  · rw [hflat]
    exact hcount
  · exact (chain_inRange hchain σ.start_inRange).xxSse

/-- Below `2 ^ 31` bytes the fields hold the offsets and sizes of the arguments. -/
theorem XxLayout.map_stored {inMem : Bool} {ts : List FlatType} {ainfo : List (ABIArgInfo XReg)}
    {bytes ssecount : ℕ} (h : XxLayout inMem ts ainfo bytes ssecount) (hbytes : bytes < 2 ^ 31) :
    ainfo.map ABIArgInfo.stored = ainfo := by
  have hid : ∀ a ∈ ainfo, a.stored = a := by
    rintro ⟨loc, size, indirect, callback, block, stfp⟩ ha
    cases loc with
    | regs rs =>
      have hsize : size ≤ 16 := ((h.whole _ ha).resolve_left Bool.false_ne_true).1
      simp only [ABIArgInfo.stored, Nat.mod_eq_of_lt (by omega : size < 2 ^ 32)]
    | mem o l =>
      have hin : o + size ≤ bytes := by exact_mod_cast h.inside _ ha o l rfl
      simp only [ABIArgInfo.stored, Nat.mod_eq_of_lt (by omega : size < 2 ^ 32),
        Nat.mod_eq_of_lt (by omega : o < 2 ^ 32)]
  calc ainfo.map ABIArgInfo.stored = ainfo.map id := map_congr_left hid
    _ = ainfo := map_id ainfo

def flatSignature (ret : Option FlatType) (args : List FlatType) : Signature where
  ret := flatResult ret
  args
  nfixed := 0
  nfixed_le := Nat.zero_le _

theorem size_lt_of_bytes {σ : Signature} (h : σ.xxInfo.bytes < 2 ^ 31) {t : FlatType}
    (ht : t ∈ σ.args) : t.size < 2 ^ 31 := by
  have hlayout := σ.xxLayout
  have hmem : t.size ∈ σ.xxInfo.ainfo.map ABIArgInfo.size := by
    rw [hlayout.sizes]
    exact mem_map_of_mem ht
  obtain ⟨a, ha, hsize⟩ := mem_map.mp hmem
  rcases hlayout.whole a ha with hm | ⟨h16, -⟩
  · obtain ⟨o, l, ho⟩ := ABIArgInfo.exists_mem hm
    have hin : o + a.size ≤ σ.xxInfo.bytes := by exact_mod_cast hlayout.inside a ha o l ho
    omega
  · omega

theorem sizeT_mapM_flat {ts : List FlatType} (h : ∀ t ∈ ts, t.size < 2 ^ 64) :
    (ts.map FlatType.ffi).mapM SizeT.initializeType = some (ts.map FlatType.desc) := by
  induction ts with
  | nil => rfl
  | cons t ts ih =>
    rw [map_cons, mapM_cons, sizeT_initializeType (h t mem_cons_self),
      ih fun x hx => h x (mem_cons_of_mem t hx)]
    rfl

theorem sizeT_flatResult {ret : Option FlatType} (h : ∀ t ∈ ret, t.size < 2 ^ 64) :
    SizeT.initializeType (flatResult ret).ffi = some (flatResult ret).desc := by
  cases ret with
  | none => rfl
  | some t => exact sizeT_initializeType (h t rfl)

/-- With types that fit a `size_t` and an argument count that fits an `int`, the preparation computes
what it would without these widths. -/
theorem sizeT_myXxFiPrepCif {ret : Option FlatType} {args : List FlatType}
    (hret : ∀ t ∈ ret, t.size < 2 ^ 64) (hargs : ∀ t ∈ args, t.size < 2 ^ 64)
    (hnargs : args.length < 2 ^ 31) :
    SizeT.myXxFiPrepCif (flatResult ret).ffi (args.map FlatType.ffi) =
      some (flatSignature ret args).xxInfo := by
  have hideal := (flatSignature ret args).myXxFiPrepCif_eq
  unfold myXxFiPrepCif at hideal
  rw [(flatSignature ret args).ret.initializeType_ffi, Option.bind_some, Signature.atypes,
    mapM_initializeType, Option.bind_some] at hideal
  unfold SizeT.myXxFiPrepCif
  rw [sizeT_flatResult hret, Option.bind_some, sizeT_mapM_flat hargs, Option.bind_some,
    SizeT.visited_of_lt (by rwa [length_map])]
  exact hideal

/-- The x86-64 preparation gives an ordered layout, as read from the 32-bit fields, if the stack
arguments stay below `2 ^ 31` bytes. -/
theorem xxLayout_prepared (ret : Option FlatType) (args : List FlatType) (info : ABIFnInfo XReg)
    (h : myXxFiPrepCif (flatResult ret).ffi (args.map FlatType.ffi) = some info)
    (hret : ∀ t ∈ ret, t.size < 2 ^ 64) (hnargs : args.length < 2 ^ 31)
    (hbytes : info.bytes < 2 ^ 31) :
    SizeT.myXxFiPrepCif (flatResult ret).ffi (args.map FlatType.ffi) = some info ∧
      XxLayout info.rinfo.indirect args (info.ainfo.map ABIArgInfo.stored) info.storedBytes
        info.ssecount := by
  obtain rfl : (flatSignature ret args).xxInfo = info :=
    Option.some.inj ((flatSignature ret args).myXxFiPrepCif_eq.symm.trans h)
  have hlayout := (flatSignature ret args).xxLayout
  refine ⟨sizeT_myXxFiPrepCif hret (fun t ht => ?_) hnargs, ?_⟩
  · have : t.size < 2 ^ 31 := size_lt_of_bytes hbytes ht
    omega
  · rw [hlayout.map_stored hbytes, storedBytes_of_lt hbytes]
    exact hlayout

theorem xxLayout_prepared_mixed :
    XxLayout true [.scalar .pointer, .struct .sint64 [.double], .struct .sint64 [.sint64, .sint8]]
      [{ loc := .regs [(.rsi, .full)], size := 8 },
        { loc := .regs [(.rdx, .full), (.xmm 0, .full)], size := 16 },
        { loc := .mem 0 .full, size := 24 }] 24 1 :=
  (xxLayout_prepared (some (.struct .sint64 [.sint64, .sint64]))
    [.scalar .pointer, .struct .sint64 [.double], .struct .sint64 [.sint64, .sint8]]
    { ainfo := [{ loc := .regs [(.rsi, .full)], size := 8 },
        { loc := .regs [(.rdx, .full), (.xmm 0, .full)], size := 16 },
        { loc := .mem 0 .full, size := 24 }]
      rinfo := xxRetInfo .inMem, bytes := 24, ssecount := 1 }
    (by rfl) (by decide) (by decide) (by decide)).2

theorem xxPlace_of_large {t : FlatType} (h : 16 < t.size) (xl : XxAlloc) :
    t.xxPlace xl = (t.xxOnStack xl, t.xxAfterStack xl) := by
  have hnil : t.classes = [] := by
    have hlen := t.classes_length
    rw [wordCount, if_neg (by omega)] at hlen
    exact length_eq_zero_iff.mp hlen
  exact if_pos (Or.inl hnil)

/-- Three structs in memory, the first of 24 bytes and the first two together of `2 ^ 32`. The offset
of the third is stored as zero, the offset of the first. -/
theorem xxLayout_overlap :
    ∃ a b : FlatType, ∃ info,
      SizeT.myXxFiPrepCif (flatResult none).ffi ([a, b, a].map FlatType.ffi) = some info ∧
      ¬ XxLayout info.rinfo.indirect [a, b, a] (info.ainfo.map ABIArgInfo.stored) info.storedBytes
        info.ssecount := by
  obtain ⟨b, hb⟩ : ∃ b : FlatType, b.size = 2 ^ 32 - 24 := by
    refine ⟨.struct .sint64 (replicate (2 ^ 29 - 4) .sint64), ?_⟩
    rw [size_struct_same _ _ fun x hx => eq_of_mem_replicate hx, length_replicate]
    norm_num [Scalar.size]
  let a : FlatType := .struct .sint64 [.sint64, .sint64]
  have ha : a.size = 24 := rfl
  refine ⟨a, b, _, sizeT_myXxFiPrepCif (by simp) (fun t ht => ?_) (by simp), fun hlayout => ?_⟩
  · simp only [mem_cons, not_mem_nil, or_false] at ht
    rcases ht with rfl | rfl | rfl <;> omega
  · have hainfo : (flatSignature none [a, b, a]).xxInfo.ainfo =
        [{ loc := .mem 0 a.locInfo, size := 24 }, { loc := .mem 24 b.locInfo, size := 2 ^ 32 - 24 },
          { loc := .mem (2 ^ 32) a.locInfo, size := 24 }] := by
      change (placements 0 [a, b, a] 0 {} {}).map Prod.snd = _
      simp only [placements, map_cons, map_nil, xxPlace_of_large (t := a) (by omega),
        xxPlace_of_large (t := b) (by omega), ha, hb, xxOnStack, xxAfterStack,
        ffiAlign_eight]
      norm_num
    have hpairs := hlayout.disjoint
    rw [hainfo] at hpairs
    have hbad := (pairwise_cons.mp hpairs).1 { loc := .mem 0 a.locInfo, size := 24 }
      (by simp [stored]) 0 _ 0 _ rfl rfl
    simp [stored] at hbad

end Iqemu64
