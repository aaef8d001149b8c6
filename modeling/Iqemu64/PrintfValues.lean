import Iqemu64.PrintfTypes
import Iqemu64.TypeCodes

/-!
# The values that printf receives

`myPrintfFamily` prepares the x86-64 arguments of a call with a format string. The type string has one
code for integers of every length. An integer of eight bytes keeps its upper half in a general
register and loses it on the stack, and a wide character is widened from one byte.
-/

namespace Iqemu64
open ByteMemory CString StepChain List FormatString ArgType ConversionSpec Signature

def abiDyA2xEntryTranslation (L : EnvLayout) (env argSpace sret : ℕ) (aaInfo : ABIFnInfo AReg)
    (xxInfo : ABIFnInfo XReg) (m : Mem) : Option Mem :=
  abiDyA2xEntryTransInternal L env argSpace (m.loadWord (env + spOffset) 8) sret aaInfo xxInfo m

def myPrintfFamily (L : EnvLayout) (env argSpace fuel idxOfFmt : ℕ) (format : List Char) (m : Mem) :
    Scan (Option Mem) :=
  (parseFmtstr fuel (idxOfFmt + 1) format).map fun infos =>
    infos.bind fun (aaInfo, xxInfo) => abiDyA2xEntryTranslation L env argSpace 0 aaInfo xxInfo m

def intWidth : Option LengthModifier → ℕ
  | some .l | some .ll | some .q | some .j | some .z | some .t => 8
  | _ => 4

def ConversionSpec.argWidth (spec : ConversionSpec Unit) : ℕ :=
  match spec.conversion with
  | .d | .i | .u | .x | .X | .o => intWidth spec.length
  | .c => if spec.length = some .l then 4 else 1
  | .C => 4
  | _ => 8

def ConversionSpec.args (spec : ConversionSpec Unit) : List (ArgType × ℕ) :=
  (if spec.width.isStar then [(.int, 4)] else []) ++ (if spec.precisionStar then [(.int, 4)] else []) ++
    [(spec.conversion.argType, spec.argWidth)]

namespace FormatString

def args : List (FormatPiece Unit) → List (ArgType × ℕ)
  | [] => []
  | .conversion spec :: ps => spec.args ++ args ps
  | _ :: ps => args ps

theorem args_map_fst (ps : List (FormatPiece Unit)) : (args ps).map Prod.fst = codes ps := by
  induction ps with
  | nil => rfl
  | cons p ps ih =>
    cases p with
    | conversion spec =>
      have hspec : spec.args.map Prod.fst = spec.codes := by
        unfold ConversionSpec.args ConversionSpec.codes
        cases spec.width.isStar <;> cases spec.precisionStar <;> rfl
      rw [args, codes, map_append, hspec, ih]
    | ordinary w hw => exact ih
    | percent => exact ih

theorem args_width_le (ps : List (FormatPiece Unit)) : ∀ a ∈ args ps, a.2 ≤ 8 := by
  induction ps with
  | nil => exact fun a ha => absurd ha not_mem_nil
  | cons p ps ih =>
    cases p with
    | conversion spec =>
      have hwidth : spec.argWidth ≤ 8 := by
        have hint : intWidth spec.length ≤ 8 := by
          unfold intWidth
          split <;> decide
        unfold argWidth
        split
        · exact hint
        · exact hint
        · exact hint
        · exact hint
        · exact hint
        · exact hint
        · split_ifs <;> decide
        · decide
        · exact le_rfl
      have hspec : ∀ a ∈ spec.args, a.2 ≤ 8 := by
        unfold ConversionSpec.args
        cases spec.width.isStar <;> cases spec.precisionStar <;> simp [hwidth]
      exact forall_mem_append.mpr ⟨hspec, ih⟩
    | ordinary w hw => exact ih
    | percent => exact ih

end FormatString

structure PrintfSeparate (L : EnvLayout) (env argSpace n : ℕ) (xxInfo : ABIFnInfo XReg) (m : Mem) :
    Prop where
  state : ∀ o < L.size, ¬ DyArea argSpace xxInfo.bytes (env + o)
  stack : ∀ o < 8 * n, ¬ DyArea argSpace xxInfo.bytes (m.loadWord (env + spOffset) 8 + o)

/-- The locations of the variable arguments hold the bytes of their stack slots, as many as the types
of the conversions have. -/
def KeepsWidths (ps : List (FormatPiece Unit)) (idxOfFmt : ℕ) : Prop :=
  ∀ fuel > ps.length, ∃ aa xx,
    parseFmtstr fuel (idxOfFmt + 1) (FormatPiece.textAll unnumbered ps) = .ok (some (aa, xx)) ∧
      ∀ (L : EnvLayout) (env argSpace : ℕ) (m : Mem),
        PrintfSeparate L env argSpace (args ps).length xx m →
        ∃ m', myPrintfFamily L env argSpace fuel idxOfFmt (FormatPiece.textAll unnumbered ps) m =
            .ok (some m') ∧
          ∀ (j : ℕ) (ty : ArgType) (width : ℕ), (args ps)[j]? = some (ty, width) →
            ∃ x, xx.ainfo[idxOfFmt + 1 + j]? = some x ∧
              ∀ k < width, x.hostByte (dyHostView argSpace m') k =
                m (m.loadWord (env + spOffset) 8 + 8 * j + k)

/-- The location of an argument has room for its value: an integer of eight bytes is in one of the six
general registers, and a character is one byte wide. -/
def ArgType.HasRoom (nfixed : ℕ) (before : List ArgType) (width : ℕ) : ArgType → Prop
  | .int | .uint => width ≤ 4 ∨ nfixed + before.countP isGeneral < 6
  | .char => width ≤ 1
  | .double | .pointer | .none => True

section Counters

theorem ArgType.countP_isGpr (ty : ArgType) :
    ty.flat.classes.countP RegClass.isGpr = if ty.isGeneral then 1 else 0 := by
  cases ty <;> rfl

theorem ArgType.countP_isSse (ty : ArgType) :
    ty.flat.classes.countP RegClass.isSse = if ty.isGeneral then 0 else 1 := by
  cases ty <;> rfl

/-- A general argument takes a general register as long as one is left. -/
theorem ArgType.xxInMemory_iff {ty : ArgType} (h : ty.isGeneral = true) {xl : XxAlloc}
    (hs : xl.ssecount ≤ 8) : ty.flat.XxInMemory xl ↔ 6 ≤ xl.gprcount := by
  have hne : ty.flat.classes ≠ [] := by cases ty <;> decide
  unfold FlatType.XxInMemory
  rw [ty.countP_isGpr, ty.countP_isSse, h]
  simp only [hne, if_true, false_or]
  omega

theorem ArgType.gprcount_xxPlace (ty : ArgType) {xl : XxAlloc} (hg : xl.gprcount ≤ 6)
    (hs : xl.ssecount ≤ 8) : (ty.flat.xxPlace xl).2.gprcount =
      min 6 (xl.gprcount + if ty.isGeneral then 1 else 0) := by
  unfold FlatType.xxPlace
  by_cases h : ty.flat.XxInMemory xl
  · rw [if_pos h]
    cases hty : ty.isGeneral with
    | true =>
      have := (xxInMemory_iff hty hs).mp h
      simp
      omega
    | false => simp [hg]
  · rw [if_neg h, ← ty.countP_isGpr]
    simp only [FlatType.XxInMemory, not_or, not_lt] at h
    simp only
    omega

theorem xxFinal_gprcount (tys : List ArgType) {xl : XxAlloc} (hg : xl.gprcount ≤ 6)
    (hs : xl.ssecount ≤ 8) : (xxFinal (tys.map flat) xl).gprcount =
      min 6 (xl.gprcount + tys.countP isGeneral) := by
  induction tys generalizing xl with
  | nil => simp [xxFinal, hg]
  | cons ty tys ih =>
    obtain ⟨-, -, -, hg', hs'⟩ := (xxPlaced_xxPlace ty.flat xl).le hg hs
    rw [map_cons, xxFinal, ih hg' hs', ty.gprcount_xxPlace hg hs, countP_cons]
    omega

structure AaAlloc.Variadic (al : AaAlloc) (o : ℕ) : Prop where
  gprcount : al.gprcount = 8
  ssecount : al.ssecount = 8
  allocatingVariadic : al.allocatingVariadic = true
  slot : ffiAlign al.stackOffset 8 = o

/-- Every variable argument takes one slot of eight bytes. -/
theorem AaAlloc.Variadic.aaPlace {al : AaAlloc} {o : ℕ} (h : al.Variadic o) (ty : ArgType) :
    (ty.flat.aaPlace al).1 = aaOnStack o ty.flat.size ∧ (ty.flat.aaPlace al).2.Variadic (o + 8) := by
  obtain ⟨hg, hs, hv, ho⟩ := h
  have hmod : o % 8 = 0 := by
    rw [← ho, ffiAlign_eight]
    omega
  have hoff : al.memOffset ty.flat.alignment = o := by
    unfold AaAlloc.memOffset
    rw [hv, ← ho]
    cases ty <;> rfl
  have hpos := ty.flat.size_pos
  have hsize : ty.flat.size ≤ 8 := by cases ty <;> decide
  have hslot : ffiAlign (o + ty.flat.size) 8 = o + 8 := by
    rw [ffiAlign_eight]
    omega
  have hplaced := aaPlaced_aaPlace ty.flat al
  generalize hr : ty.flat.aaPlace al = r at hplaced ⊢
  obtain ⟨a, al'⟩ := r
  simp only at hplaced ⊢
  cases hplaced with
  | vector hvec hfit =>
    have := (FlatType.vector_spec hvec).1
    omega
  | general hvec h16 hfit => omega
  | pointer hvec h16 hfit => omega
  | stackVector hvec => exact ⟨by rw [hoff], hg, rfl, hv, by rw [hoff, hslot]⟩
  | stackGeneral hvec h16 => exact ⟨by rw [hoff], rfl, hs, hv, by rw [hoff, hslot]⟩
  | stackPointer hvec h16 => omega

theorem AaAlloc.Variadic.aaFinal {al : AaAlloc} {o nfixed i : ℕ} (h : al.Variadic o)
    (tys : List ArgType) (hi : nfixed ≤ i) :
    (aaFinal nfixed (tys.map flat) i al).Variadic (o + 8 * tys.length) := by
  induction tys generalizing i al o with
  | nil => exact h
  | cons ty tys ih =>
    have hnext : ty.flat.aaNext nfixed i al = (ty.flat.aaPlace al).2 := if_neg (by omega)
    rw [map_cons, Iqemu64.aaFinal, hnext, length_cons]
    have := ih (h.aaPlace ty).2 (show nfixed ≤ i + 1 by omega)
    rwa [show o + 8 * (tys.length + 1) = o + 8 + 8 * tys.length by omega]

/-- Up to eight pointers before the variable arguments are in registers. -/
theorem aaFinal_fixed {nfixed : ℕ} (hpos : 0 < nfixed) (hle : nfixed ≤ 8) :
    (aaFinal nfixed ((replicate nfixed pointer).map flat) 0 {}).Variadic 0 := by
  interval_cases nfixed <;> exact ⟨rfl, rfl, rfl, rfl⟩

end Counters

def printfSignature (nfixed : ℕ) (tys : List ArgType) : Signature :=
  codeSignature .pointer (replicate nfixed .pointer ++ tys) nfixed (by simp)

theorem parseFmtstr_unnumbered (ps : List (FormatPiece Unit)) {nfixed fuel : ℕ}
    (h : 1 + nfixed + (codes ps).length < 2 ^ 32) (hpos : 0 < nfixed)
    (hfuel : ps.length < fuel) :
    parseFmtstr fuel nfixed (FormatPiece.textAll unnumbered ps) =
      .ok (some ((printfSignature nfixed (codes ps)).aaInfo,
        (printfSignature nfixed (codes ps)).xxInfo)) := by
  have htypes : replicate (nfixed + 1) pointer.code ++
      (codes ps).map code =
      (.pointer :: (replicate nfixed .pointer ++ codes ps)).map code := by
    simp [replicate_succ]
  rw [parseFmtstr, fmtstrTypes_unnumbered ps nfixed h hfuel, htypes]
  refine getVariFnInfoFromTypes_codes (by decide) (fun ty hty => ?_) hpos (by simp)
    (by unfold invalidValue; omega)
  rcases mem_append.mp hty with hty | hty
  · rw [eq_of_mem_replicate hty]
    decide
  · exact codes_ne_none ps ty hty

section Places
variable {ty : ArgType} {xl : XxAlloc}

theorem xxPlace_register (hty : ty = .int ∨ ty = .uint) (xl : XxAlloc) (hg : xl.gprcount < 6) (hs : xl.ssecount ≤ 8) :
    (ty.flat.xxPlace xl).1 = { loc := .regs [(xxGpr xl.gprcount, .full)], size := 4 } ∧
      (ty.flat.xxPlace xl).2.gprcount = xl.gprcount + 1 := by
  have hmem : ¬ ty.flat.XxInMemory xl := by
    rw [xxInMemory_iff (by rcases hty with rfl | rfl <;> rfl) hs]
    omega
  unfold FlatType.xxPlace
  rw [if_neg hmem]
  rcases hty with rfl | rfl <;> exact ⟨rfl, rfl⟩

theorem xxPlace_stack (hty : ty = .int ∨ ty = .uint) (xl : XxAlloc) (hg : 6 ≤ xl.gprcount) (hs : xl.ssecount ≤ 8) :
    (ty.flat.xxPlace xl).1 = { loc := .mem (ffiAlign xl.bytes 8) .full, size := 4 } ∧
      (ty.flat.xxPlace xl).2.bytes = ffiAlign xl.bytes 8 + 4 := by
  have hmem : ty.flat.XxInMemory xl :=
    (xxInMemory_iff (by rcases hty with rfl | rfl <;> rfl) hs).mpr hg
  unfold FlatType.xxPlace
  rw [if_pos hmem]
  rcases hty with rfl | rfl <;> exact ⟨rfl, rfl⟩

theorem ArgType.size_int (hty : ty = .int ∨ ty = .uint) : ty.flat.size = 4 := by
  rcases hty with rfl | rfl <;> rfl

theorem dyArg_register (L : EnvLayout) (env argSpace sp o : ℕ) (x : XReg) (m : Mem) :
    dyArg L env argSpace sp (aaOnStack o 4) { loc := .regs [(x, .full)], size := 4 } m =
      some ((dyToReg argSpace x (sp + o) 8 .full).run m) := rfl

theorem dyArg_stack (L : EnvLayout) (env argSpace sp o o' : ℕ) (m : Mem) :
    dyArg L env argSpace sp (aaOnStack o 4) { loc := .mem o' .full, size := 4 } m =
      some ((dyToStack argSpace o' (sp + o) 4).run m) := rfl

theorem hostByte_register {h : HostView} {x : XReg} {info : LocInfo} {size k : ℕ} (hk : k < 8) :
    ABIArgInfo.hostByte h { loc := .regs [(x, info)], size := size } k = h.reg x k := by
  simp [ABIArgInfo.hostByte, ABIArgInfo.teGetReg, ABIArgInfo.regs, Nat.div_eq_of_lt hk,
    Nat.mod_eq_of_lt hk]

end Places

/-- The translation of a call with codes runs through, and its argument loop is the chain of steps. -/
theorem codeSignature_run (ret : ArgType) (tys : List ArgType) (nfixed : ℕ) (h : nfixed ≤ tys.length)
    (L : EnvLayout) (env argSpace sp sret : ℕ) (m : Mem) :
    ∃ m₁, abiDyA2xEntryTransInternal L env argSpace sp sret (codeSignature ret tys nfixed h).aaInfo
        (codeSignature ret tys nfixed h).xxInfo m =
          some (m₁.storeWord (argSpace + 176) 8 (codeSignature ret tys nfixed h).xxInfo.ssecount) ∧
      (dySteps L env argSpace sp (codeSignature ret tys nfixed h).aaInfo.bytes
        (codeSignature ret tys nfixed h).xxInfo.bytes m).run (codeSignature ret tys nfixed h).places m =
          some m₁ := by
  obtain ⟨m₁, hargs, hrun⟩ := @dyArgs_run L env argSpace sp _ m m (codeSignature_floatFree h)
    fun _ _ => rfl
  refine ⟨m₁, ?_, hrun⟩
  -- a scalar result needs no register
  have hret : dyRet env argSpace sret (codeSignature ret tys nfixed h).aaInfo.rinfo
      (codeSignature ret tys nfixed h).xxInfo.rinfo m = some m := by
    cases ret <;> rfl
  unfold abiDyA2xEntryTransInternal
  rw [hret, Option.bind_some, hargs]
  rfl

section Delivery
variable {L : EnvLayout} {env argSpace sp nfixed : ℕ} {tys pre post : List ArgType} {ty : ArgType}
  {m m' : Mem}

def StackFrom (argSpace : ℕ) (m₀ : Mem) (c : Counters) (m : Mem) : Prop :=
  ∀ o, ffiAlign c.2.bytes 8 ≤ o → m (argSpace + registerArgsSize + o) =
    m₀ (argSpace + registerArgsSize + o)

theorem StackFrom.dyArg {aaBytes xxBytes : ℕ} {c c₁ : Counters} {p : Placement} {m₀ m₁ : Mem}
    (hlay : Laid FlatType.FloatFree aaBytes xxBytes c p c₁) (h : StackFrom argSpace m₀ c m)
    (hstep : dyArg L env argSpace sp p.1 p.2 m = some m₁) : StackFrom argSpace m₀ c₁ m₁ := by
  intro o ho
  have hsize : registerArgsSize = 184 := rfl
  have hgrow := hlay.mono.2.2.2.2.2
  rw [ffiAlign_eight] at ho
  rw [dyArg_outside hlay hstep]
  · refine h o ?_
    rw [ffiAlign_eight]
    omega
  · unfold DyOwn
    simp only [ffiAlign_eight]
    omega

def dyFreshSteps (L : EnvLayout) (env argSpace sp aaBytes xxBytes : ℕ) (m₀ : Mem) :
    Steps Mem Counters Placement :=
  (dySteps L env argSpace sp aaBytes xxBytes m₀).strengthen (StackFrom argSpace m₀)
    fun hlay _ h hstep => h.dyArg hlay hstep

/-- One turn of the loop, between what came before it and what comes after it. -/
theorem dyArgs_step (σ : Signature) (hσ : ∀ t ∈ σ.args, t.FloatFree) {ts us : List FlatType}
    {t : FlatType} (hargs : σ.args = ts ++ t :: us)
    (hrun : (dySteps L env argSpace sp σ.aaInfo.bytes σ.xxInfo.bytes m).run σ.places m = some m') :
    (σ.countersAt ts).InRange ∧ ∃ m₁ m₂,
      (∀ a, ¬ DyArea argSpace σ.xxInfo.bytes a → m₁ a = m a) ∧
      StackFrom argSpace m (σ.countersAt ts) m₁ ∧
      dyArg L env argSpace sp (t.aaPlace (σ.countersAt ts).1).1 (t.xxPlace (σ.countersAt ts).2).1 m₁ =
        some m₂ ∧
      ∀ v, AgreeBelow (t.xxPlace (σ.countersAt ts).2).2 (dyHostView argSpace m₂)
        (dyHostView argSpace (m'.storeWord (argSpace + 176) 8 v)) := by
  obtain ⟨c', hbefore, hlaid, hafter⟩ := chain_split hargs hσ
  rw [places_split hargs] at hrun
  obtain ⟨m₁, m₂, hinv, hstep, hagree⟩ := Steps.exists_step_of_append
    (dyFreshSteps L env argSpace sp σ.aaInfo.bytes σ.xxInfo.bytes m) hbefore hlaid hafter
    ⟨fun _ _ => rfl, fun _ _ => rfl⟩
    ((Steps.strengthen_run _ (fun hlay _ h hstep => h.dyArg hlay hstep) _ _).trans hrun)
  have hrange := hlaid.inRange_after
  exact ⟨hlaid.inRange, m₁, m₂, hinv.1, hinv.2, hstep, fun v => AgreeBelow.trans hagree
    (agreeBelow_storeWord_rax hrange.xxGpr hrange.xxSse argSpace v m')⟩

theorem printf_args_eq (nfixed : ℕ) (htys : tys = pre ++ ty :: post) : (printfSignature nfixed tys).args =
    (replicate nfixed pointer ++ pre).map flat ++
      ty.flat :: post.map flat := by
  simp [printfSignature, codeSignature, htys]

abbrev printfCounters (nfixed : ℕ) (tys pre : List ArgType) : Counters :=
  (printfSignature nfixed tys).countersAt
    ((replicate nfixed pointer ++ pre).map flat)

theorem printfCounters_variadic (tys pre : List ArgType) (hpos : 0 < nfixed) (hle : nfixed ≤ 8) :
    (printfCounters nfixed tys pre).1.Variadic (8 * pre.length) := by
  have h := (aaFinal_fixed hpos hle).aaFinal pre (le_refl nfixed)
  rw [Nat.zero_add] at h
  simp only [printfCounters, countersAt, map_append]
  rw [aaFinal_append, Nat.zero_add, length_map, length_replicate]
  exact h

theorem printf_xxStart (nfixed : ℕ) (tys : List ArgType) : (printfSignature nfixed tys).xxStart = {} :=
  rfl

theorem printfCounters_gprcount (nfixed : ℕ) (tys pre : List ArgType) :
    (printfCounters nfixed tys pre).2.gprcount =
    min 6 (nfixed + pre.countP isGeneral) := by
  simp only [printfCounters, countersAt, printf_xxStart]
  rw [xxFinal_gprcount _ (by decide) (by decide), countP_append, countP_replicate,
    Nat.zero_add]
  rfl

theorem printf_aaBytes_le (tys : List ArgType) (hpos : 0 < nfixed) (hle : nfixed ≤ 8) :
    (printfSignature nfixed tys).aaInfo.bytes ≤ 8 * tys.length := by
  have h := (printfCounters_variadic tys tys hpos hle).slot
  rw [← h]
  exact ffiAlign_eight_ge _

theorem printf_dySeparate (hpos : 0 < nfixed) (hle : nfixed ≤ 8)
    (hsep : PrintfSeparate L env argSpace tys.length (printfSignature nfixed tys).xxInfo m) :
    DySeparate L env argSpace (m.loadWord (env + spOffset) 8) (printfSignature nfixed tys).aaInfo
      (printfSignature nfixed tys).xxInfo m := by
  have hbytes := printf_aaBytes_le tys hpos hle
  refine ⟨hsep.state, fun o ho => hsep.stack o (by omega), fun a ha hind => ?_⟩
  -- no argument is passed by pointer
  obtain ⟨p, hp, rfl⟩ := mem_map.mp ha
  have hQ : ∀ t ∈ (printfSignature nfixed tys).args, t.size ≤ 8 := by
    intro t ht
    obtain ⟨ty, -, rfl⟩ := mem_map.mp ht
    cases ty <;> decide
  obtain ⟨c, c', hlaid⟩ := ((printfSignature nfixed tys).chain hQ le_rfl).exists_of_mem hp
  obtain ⟨t, al, ht, haa, -, -⟩ := hlaid.place
  generalize p.1 = a at haa hind
  cases haa with
  | vector | general | stackVector | stackGeneral => exact absurd hind (by simp)
  | pointer hv h16 hfit => omega
  | stackPointer hv h16 => omega

theorem printf_run (nfixed : ℕ) (tys : List ArgType) (L : EnvLayout) (env argSpace : ℕ) (m : Mem) :
    ∃ m₁, abiDyA2xEntryTranslation L env argSpace 0 (printfSignature nfixed tys).aaInfo
        (printfSignature nfixed tys).xxInfo m =
          some (m₁.storeWord (argSpace + 176) 8 (printfSignature nfixed tys).xxInfo.ssecount) ∧
      (dySteps L env argSpace (m.loadWord (env + spOffset) 8) (printfSignature nfixed tys).aaInfo.bytes
        (printfSignature nfixed tys).xxInfo.bytes m).run (printfSignature nfixed tys).places m =
          some m₁ :=
  codeSignature_run _ _ _ _ _ _ _ _ _ _

theorem printf_aaPlace (hpos : 0 < nfixed) (hle : nfixed ≤ 8) :
    (ty.flat.aaPlace (printfCounters nfixed tys pre).1).1 = aaOnStack (8 * pre.length) ty.flat.size :=
  ((printfCounters_variadic tys pre hpos hle).aaPlace ty).1

theorem printf_hostHolds (htys : tys = pre ++ ty :: post) (hpos : 0 < nfixed) (hle : nfixed ≤ 8)
    (hsep : PrintfSeparate L env argSpace tys.length (printfSignature nfixed tys).xxInfo m)
    (hrun : (dySteps L env argSpace (m.loadWord (env + spOffset) 8)
      (printfSignature nfixed tys).aaInfo.bytes (printfSignature nfixed tys).xxInfo.bytes m).run
        (printfSignature nfixed tys).places m = some m') (v : ℕ) :
    HostHolds (dyHostView argSpace (m'.storeWord (argSpace + 176) 8 v))
      (ty.flat.xxPlace (printfCounters nfixed tys pre).2).1
      fun k => m (m.loadWord (env + spOffset) 8 + 8 * pre.length + k) := by
  have hmem := mem_of_getElem?
    (getElem?_places (printf_args_eq nfixed htys))
  have h := dyArgs_hostHolds (codeSignature_floatFree _) (printf_dySeparate hpos hle hsep)
    (fun _ _ => rfl) hrun hmem v
  simp only [placeAt, printf_aaPlace hpos hle] at h
  exact h

/-- An integer in a general register has all eight bytes of its slot. -/
theorem printf_register (htys : tys = pre ++ ty :: post) (hpos : 0 < nfixed) (hle : nfixed ≤ 8)
    (hsep : PrintfSeparate L env argSpace tys.length (printfSignature nfixed tys).xxInfo m)
    (hrun : (dySteps L env argSpace (m.loadWord (env + spOffset) 8)
      (printfSignature nfixed tys).aaInfo.bytes (printfSignature nfixed tys).xxInfo.bytes m).run
        (printfSignature nfixed tys).places m = some m') (v : ℕ) (hty : ty = .int ∨ ty = .uint)
    (hreg : nfixed + pre.countP isGeneral < 6) {k : ℕ} (hk : k < 8) :
    ABIArgInfo.hostByte (dyHostView argSpace (m'.storeWord (argSpace + 176) 8 v))
      (ty.flat.xxPlace (printfCounters nfixed tys pre).2).1 k =
        m (m.loadWord (env + spOffset) 8 + 8 * pre.length + k) := by
  obtain ⟨hrange, m₁, m₂, hout, -, hstep, hagree⟩ := dyArgs_step (printfSignature nfixed tys)
    (codeSignature_floatFree _) (printf_args_eq nfixed htys) hrun
  have hcount := printfCounters_gprcount nfixed tys pre
  obtain ⟨hplace, hafter⟩ := xxPlace_register hty (printfCounters nfixed tys pre).2
    (by omega) hrange.xxSse
  rw [printf_aaPlace hpos hle, hplace, size_int hty, dyArg_register] at hstep
  cases hstep
  have hslot : ¬ DyArea argSpace (printfSignature nfixed tys).xxInfo.bytes
      (m.loadWord (env + spOffset) 8 + (8 * pre.length + k)) := by
    refine hsep.stack _ ?_
    simp only [htys, length_append, length_cons]
    omega
  rw [hplace, hostByte_register hk, (hagree v).gpr _ (by rw [hafter]; omega) k hk]
  refine ((dyToReg argSpace (xxGpr (printfCounters nfixed tys pre).2.gprcount)
    (m.loadWord (env + spOffset) 8 + 8 * pre.length) 8 .full).run_inside m₁ hk (Or.inl rfl)).trans ?_
  rw [Nat.add_assoc _ _ k, ← hout _ hslot, ← Nat.add_assoc]
  rfl

/-- An integer on the stack has four bytes of its slot, and above them what the block held before. -/
theorem printf_stack (htys : tys = pre ++ ty :: post) (hpos : 0 < nfixed) (hle : nfixed ≤ 8)
    (hrun : (dySteps L env argSpace sp (printfSignature nfixed tys).aaInfo.bytes
      (printfSignature nfixed tys).xxInfo.bytes m).run (printfSignature nfixed tys).places m = some m')
    (v : ℕ) (hty : ty = .int ∨ ty = .uint) (hreg : 6 ≤ nfixed + pre.countP isGeneral) :
    ∃ o, ABIArgInfo.hostByte (dyHostView argSpace (m'.storeWord (argSpace + 176) 8 v))
      (ty.flat.xxPlace (printfCounters nfixed tys pre).2).1 4 = m (argSpace + registerArgsSize + o) := by
  obtain ⟨hrange, m₁, m₂, -, hfresh, hstep, hagree⟩ := dyArgs_step (printfSignature nfixed tys)
    (codeSignature_floatFree _) (printf_args_eq nfixed htys) hrun
  have hcount := printfCounters_gprcount nfixed tys pre
  obtain ⟨hplace, hafter⟩ := xxPlace_stack hty (printfCounters nfixed tys pre).2 (by omega)
    hrange.xxSse
  rw [printf_aaPlace hpos hle, hplace, size_int hty, dyArg_stack] at hstep
  cases hstep
  refine ⟨ffiAlign (printfCounters nfixed tys pre).2.bytes 8 + 4, ?_⟩
  rw [hplace]
  refine ((hagree v).stack _ ?_).trans ?_
  · rw [hafter]
    simp only [ffiAlign_eight]
    omega
  · refine ((dyToStack argSpace (ffiAlign (printfCounters nfixed tys pre).2.bytes 8)
      (sp + 8 * pre.length) 4).run_outside m₁ fun hc => ?_).trans (hfresh _ (Nat.le_add_right _ 4))
    have := (dyToStack_covers hc).2.2 rfl
    omega

end Delivery

section Widths
variable {ps : List (FormatPiece Unit)} {idxOfFmt j width fuel : ℕ} {ty : ArgType}

theorem codes_split (hj : (args ps)[j]? = some (ty, width)) :
    ∃ post, codes ps = ((args ps).take j).map Prod.fst ++ ty :: post ∧
      (((args ps).take j).map Prod.fst).length = j := by
  obtain ⟨hlt, hget⟩ := List.getElem?_eq_some_iff.mp hj
  refine ⟨((args ps).drop (j + 1)).map Prod.fst, ?_, ?_⟩
  · rw [← args_map_fst ps]
    conv_lhs => rw [← take_append_drop j (args ps), drop_eq_getElem_cons hlt, hget]
    simp
  · rw [length_map, length_take]
    omega

theorem length_codes (ps : List (FormatPiece Unit)) :
    (codes ps).length = (args ps).length := by
  rw [← args_map_fst, length_map]

theorem printf_ainfo (nfixed : ℕ) {tys pre post : List ArgType} (htys : tys = pre ++ ty :: post) :
    (printfSignature nfixed tys).xxInfo.ainfo[nfixed + pre.length]? =
      some (ty.flat.xxPlace (printfCounters nfixed tys pre).2).1 := by
  have h := getElem?_places (printf_args_eq nfixed htys)
  rw [length_map, length_append, length_replicate] at h
  rw [xxInfo, getElem?_map, h]
  rfl

theorem myPrintfFamily_eq (hlen : 2 + idxOfFmt + (args ps).length < 2 ^ 32)
    (hfuel : ps.length < fuel) (L : EnvLayout) (env argSpace : ℕ) (m : Mem) :
    myPrintfFamily L env argSpace fuel idxOfFmt (FormatPiece.textAll unnumbered ps) m =
      .ok (abiDyA2xEntryTranslation L env argSpace 0
        (printfSignature (idxOfFmt + 1) (codes ps)).aaInfo
        (printfSignature (idxOfFmt + 1) (codes ps)).xxInfo m) := by
  rw [myPrintfFamily, parseFmtstr_unnumbered ps (by rw [length_codes]; omega) (Nat.succ_pos _) hfuel]
  rfl

theorem keepsWidths_of_hasRoom (hidx : idxOfFmt ≤ 7)
    (hlen : 2 + idxOfFmt + (args ps).length < 2 ^ 32)
    (h : ∀ (j : ℕ) (ty : ArgType) (width : ℕ), (args ps)[j]? = some (ty, width) →
      ty.HasRoom (idxOfFmt + 1) (((args ps).take j).map Prod.fst) width) :
    KeepsWidths ps idxOfFmt := by
  intro fuel hfuel
  refine ⟨_, _, parseFmtstr_unnumbered ps (by rw [length_codes]; omega) (Nat.succ_pos _) hfuel, ?_⟩
  intro L env argSpace m hsep
  rw [← length_codes] at hsep
  obtain ⟨m₁, hcall, hrun⟩ := printf_run (idxOfFmt + 1) (codes ps) L env argSpace m
  refine ⟨_, (myPrintfFamily_eq hlen hfuel L env argSpace m).trans (congrArg Except.ok hcall), ?_⟩
  intro j ty width hj
  obtain ⟨post, hcodes, hpre⟩ := codes_split hj
  have hroom := h j ty width hj
  have hwidth : width ≤ 8 := args_width_le ps _ (mem_of_getElem? hj)
  have hinfo := printf_ainfo (idxOfFmt + 1) hcodes
  rw [hpre] at hinfo
  refine ⟨_, hinfo, fun k hk => ?_⟩
  have hholds := printf_hostHolds hcodes (Nat.succ_pos _) (by omega) hsep hrun
    (printfSignature (idxOfFmt + 1) (codes ps)).xxInfo.ssecount
  rw [hpre] at hholds
  rcases lt_or_ge k ty.flat.size with hsize | hsize
  · exact HostHolds.hostByte_eq (xxPlaced_xxPlace _ _) hholds hsize
  · -- a value wider than its code is an integer, and that is in a register
    have hint : ty = .int ∨ ty = .uint := by
      have hlt : ty.flat.size < width := by omega
      cases ty with
      | int => exact Or.inl rfl
      | uint => exact Or.inr rfl
      | char => exact absurd hroom hlt.not_ge
      | double | pointer | none => exact absurd hwidth hlt.not_ge
    have hreg : idxOfFmt + 1 + (((args ps).take j).map Prod.fst).countP
        isGeneral < 6 := by
      rw [size_int hint] at hsize
      rcases hint with rfl | rfl <;> exact hroom.resolve_left (by omega)
    have := printf_register hcodes (Nat.succ_pos _) (by omega) hsep hrun
      (printfSignature (idxOfFmt + 1) (codes ps)).xxInfo.ssecount hint hreg
      (show k < 8 by omega)
    rwa [hpre] at this

def onesStack (n : ℕ) : Mem :=
  Mem.storeWord (fun a => if 65536 ≤ a ∧ a < 65536 + 8 * n then 1 else 0) spOffset 8 65536

theorem onesStack_sp (n : ℕ) : (onesStack n).loadWord (0 + spOffset) 8 = 65536 := by
  rw [Nat.zero_add, onesStack, Mem.loadWord_storeWord]
  rfl

theorem onesStack_of_le {n a : ℕ} (ha : 256 ≤ a) :
    onesStack n a = if 65536 ≤ a ∧ a < 65536 + 8 * n then 1 else 0 := by
  refine Mem.storeWord_outside _ _ _ _ a (Or.inr ?_)
  unfold spOffset
  omega

theorem printfSeparate_onesStack (n : ℕ) (xx : ABIFnInfo XReg) :
    PrintfSeparate .least 0 (65536 + 8 * n) n xx (onesStack n) := by
  have hsize : EnvLayout.least.size = 8464 := rfl
  refine ⟨fun o ho h => ?_, fun o ho h => ?_⟩
  · have := h.1
    omega
  · have := h.1
    rw [onesStack_sp] at this
    omega

theorem onesStack_slot {n j k : ℕ} (hj : j < n) (hk : k < 8) : onesStack n (65536 + 8 * j + k) = 1 := by
  rw [onesStack_of_le (by omega), if_pos (by omega)]

theorem onesStack_block {n o : ℕ} : onesStack n (65536 + 8 * n + registerArgsSize + o) = 0 := by
  rw [onesStack_of_le (by omega), if_neg (by omega)]

theorem hasRoom_of_keepsWidths (hidx : idxOfFmt ≤ 7)
    (hlen : 2 + idxOfFmt + (args ps).length < 2 ^ 32) (h : KeepsWidths ps idxOfFmt)
    (hj : (args ps)[j]? = some (ty, width)) :
    ty.HasRoom (idxOfFmt + 1) (((args ps).take j).map Prod.fst) width := by
  obtain ⟨aa, xx, hparse, h⟩ := h (ps.length + 1) (Nat.lt_succ_self _)
  have hinfos := parseFmtstr_unnumbered ps (show 1 + (idxOfFmt + 1) + _ < 2 ^ 32 by
    rw [length_codes]; omega) (Nat.succ_pos _) (Nat.lt_succ_self _)
  obtain ⟨rfl, rfl⟩ := Prod.mk.inj (Option.some.inj (Except.ok.inj (hparse.symm.trans hinfos)))
  have hsep := printfSeparate_onesStack (args ps).length
    (printfSignature (idxOfFmt + 1) (codes ps)).xxInfo
  obtain ⟨m', hcall, hbytes⟩ := h .least 0 _ _ hsep
  rw [← length_codes] at hsep hcall hbytes
  obtain ⟨m₁, hcall', hrun⟩ := printf_run (idxOfFmt + 1) (codes ps) .least 0
    (65536 + 8 * (codes ps).length) (onesStack (codes ps).length)
  rw [myPrintfFamily_eq hlen (Nat.lt_succ_self _), hcall'] at hcall
  obtain rfl := Option.some.inj (Except.ok.inj hcall)
  obtain ⟨x, hx, hbyte⟩ := hbytes j ty width hj
  obtain ⟨post, hcodes, hpre⟩ := codes_split hj
  have hinfo := printf_ainfo (idxOfFmt + 1) hcodes
  rw [hpre] at hinfo
  obtain rfl := Option.some.inj (hinfo.symm.trans hx)
  have hjn : j < (codes ps).length := by
    rw [length_codes]
    exact (List.getElem?_eq_some_iff.mp hj).1
  rw [onesStack_sp] at hbyte
  by_contra hroom
  -- an integer on the stack has a zero above its four bytes
  have hint (hty : ty = .int ∨ ty = .uint) (h4 : 4 < width) (h6 : 6 ≤ idxOfFmt + 1 +
      (((args ps).take j).map Prod.fst).countP isGeneral) : False := by
    obtain ⟨o, ho⟩ := printf_stack hcodes (Nat.succ_pos _) (by omega) hrun
      (printfSignature (idxOfFmt + 1) (codes ps)).xxInfo.ssecount hty h6
    rw [hbyte 4 h4, onesStack_slot hjn (by decide), onesStack_block] at ho
    exact absurd ho (by decide)
  cases ty with
  | int =>
    simp only [ArgType.HasRoom, not_or, not_le, not_lt] at hroom
    exact hint (Or.inl rfl) hroom.1 hroom.2
  | uint =>
    simp only [ArgType.HasRoom, not_or, not_le, not_lt] at hroom
    exact hint (Or.inr rfl) hroom.1 hroom.2
  | char =>
    -- the sign of the first byte is in the second one
    have hholds := printf_hostHolds hcodes (Nat.succ_pos _) (by omega) hsep hrun
      (printfSignature (idxOfFmt + 1) (codes ps)).xxInfo.ssecount
    rw [hpre, onesStack_sp] at hholds
    unfold HostHolds at hholds
    rw [(xxPlaced_xxPlace _ _).widening_eq] at hholds
    have hone := hholds 1 (by decide)
    rw [hbyte 1 (not_le.mp hroom), onesStack_slot hjn (by decide)] at hone
    simp only [extendBytes, onesStack_slot hjn (show 1 - 1 < 8 by decide)] at hone
    rw [if_neg (by decide)] at hone
    exact absurd hone (by decide)
  | double | pointer | none => exact hroom trivial

/-- `n` conversions `%ld`. -/
def longs (n : ℕ) : List (FormatPiece Unit) :=
  replicate n (.conversion { plainSpec () .d with length := some .l })

theorem args_longs (n : ℕ) : args (longs n) = replicate n (.int, 8) := by
  induction n with
  | zero => rfl
  | succ n ih => exact congrArg ((int, 8) :: ·) ih

end Widths

end Iqemu64
