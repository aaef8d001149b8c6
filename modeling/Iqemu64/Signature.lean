import Iqemu64.FlatClasses

/-!
# Signatures over flat types

A `Signature` is a result type and argument types. Both preparations run on the same descriptors, the
x86-64 one first. `Layout` pairs the placements that the two argument loops give each argument; the
results on the translated calls are by induction on it.
-/

namespace Iqemu64
open List RegClass

def xxGpr (g : ℕ) : XReg := gprcnt2reg.getD g .r9

def xxPieces (info : LocInfo) : List RegClass → ℕ → ℕ → List (XReg × LocInfo)
  | [], _, _ => []
  | c :: cs, g, v =>
    if c.isSse then (.xmm v, .full) :: xxPieces info cs g (v + 1)
    else (xxGpr g, info) :: xxPieces info cs (g + 1) v

theorem gprcnt2reg_getElem? {g : ℕ} (hg : g < 6) : gprcnt2reg[g]? = some (xxGpr g) := by
  interval_cases g <;> rfl

theorem ssecnt2reg_getElem? {v : ℕ} (hv : v < 8) : ssecnt2reg[v]? = some (.xmm v) := by
  interval_cases v <;> rfl

theorem xxRegs_eq (tag : FfiTypeTag) (cs : List RegClass) (al : XxAlloc)
    (hcs : ∀ c ∈ cs, c.isGpr ∨ c.isSse) (hg : al.gprcount + cs.countP isGpr ≤ 6)
    (hv : al.ssecount + cs.countP isSse ≤ 8) :
    xxRegs tag cs al = some (xxPieces (xxLocInfo tag) cs al.gprcount al.ssecount,
      { al with
        gprcount := al.gprcount + cs.countP isGpr
        ssecount := al.ssecount + cs.countP isSse }) := by
  induction cs generalizing al with
  | nil => rfl
  | cons c cs ih =>
    have hrest : ∀ d ∈ cs, d.isGpr ∨ d.isSse := fun d hd => hcs d (mem_cons_of_mem c hd)
    simp only [countP_cons] at hg hv ⊢
    have hc := hcs c mem_cons_self
    cases c <;> simp only [isGpr, isSse, Bool.false_eq_true, or_self] at hc
    case integer | integersi =>
      simp only [isGpr, isSse, if_true, Bool.false_eq_true, if_false] at hg hv ⊢
      rw [xxRegs, gprcnt2reg_getElem? (by omega), Option.bind_some,
        ih { al with gprcount := al.gprcount + 1 } hrest (by simp; omega) (by simpa using hv)]
      simp [xxPieces, isSse]
      omega
    case sse | ssesf | ssedf =>
      simp only [isGpr, isSse, if_true, Bool.false_eq_true, if_false] at hg hv ⊢
      rw [xxRegs, ssecnt2reg_getElem? (by omega), Option.bind_some,
        ih { al with ssecount := al.ssecount + 1 } hrest (by simpa using hg) (by simp; omega)]
      simp [xxPieces, isSse]
      omega

namespace FlatType

def locInfo (t : FlatType) : LocInfo := xxLocInfo t.desc.type

def XxInMemory (t : FlatType) (al : XxAlloc) : Prop :=
  t.classes = [] ∨ al.gprcount + t.classes.countP isGpr > 6 ∨
    al.ssecount + t.classes.countP isSse > 8

instance (t : FlatType) (al : XxAlloc) : Decidable (t.XxInMemory al) :=
  inferInstanceAs (Decidable (_ ∨ _ ∨ _))

def xxPlace (t : FlatType) (al : XxAlloc) : ABIArgInfo XReg × XxAlloc :=
  if t.XxInMemory al then
    ({ loc := .mem (ffiAlign al.bytes 8) t.locInfo, size := t.size },
      { al with bytes := ffiAlign al.bytes 8 + t.size })
  else
    ({ loc := .regs (xxPieces t.locInfo t.classes al.gprcount al.ssecount), size := t.size },
      { al with
        gprcount := al.gprcount + t.classes.countP isGpr
        ssecount := al.ssecount + t.classes.countP isSse })

theorem xxArg_desc (t : FlatType) (al : XxAlloc) : xxArg t.desc al = some (t.xxPlace al) := by
  have halign : (if t.desc.alignment < 8 then 8 else t.desc.alignment) = 8 := by
    rw [desc_alignment]
    rcases t.alignment_isAlignment with h | h | h | h <;> rw [h] <;> rfl
  unfold xxArg xxPlace
  rw [examineArgument_desc, Option.bind_some, halign, desc_size]
  by_cases hmem : t.XxInMemory al
  · rw [if_pos hmem]
    exact if_pos hmem
  · rw [if_neg hmem]
    refine (if_neg hmem).trans ?_
    simp only [XxInMemory, not_or, not_lt] at hmem
    rw [xxRegs_eq _ _ _ t.classes_isArg (by omega) (by omega)]
    rfl

end FlatType

structure ResultType where
  ffi : FfiType
  desc : FfiType
  aaRet : AaRet
  xxRet : XxRet
  initializeType_ffi : initializeType ffi = some desc
  aaRetFlags_desc : aaRetFlags desc = some aaRet
  xxRetFlags_desc : xxRetFlags desc = some xxRet

structure Signature where
  ret : ResultType
  args : List FlatType
  nfixed : ℕ
  nfixed_le : nfixed ≤ args.length

namespace Signature

def atypes (σ : Signature) : List FfiType := σ.args.map FlatType.ffi

def fnInfos (σ : Signature) : Option (ABIFnInfo AReg × ABIFnInfo XReg) := do
  let xx ← myXxFiPrepCif σ.ret.ffi σ.atypes
  let aa ← if σ.nfixed = 0 then myAaFiPrepCif σ.ret.ffi σ.atypes
    else myAaFiPrepCifVar σ.nfixed σ.ret.ffi σ.atypes
  pure (aa, xx)

end Signature

def FlatType.aaNext (t : FlatType) (nfixed i : ℕ) (al : AaAlloc) : AaAlloc :=
  if i + 1 = nfixed then (t.aaPlace al).2.enterVariadic else (t.aaPlace al).2

def placements (nfixed : ℕ) : List FlatType → ℕ → AaAlloc → XxAlloc →
    List (ABIArgInfo AReg × ABIArgInfo XReg)
  | [], _, _, _ => []
  | t :: ts, i, al, xl =>
    ((t.aaPlace al).1, (t.xxPlace xl).1) ::
      placements nfixed ts (i + 1) (t.aaNext nfixed i al) (t.xxPlace xl).2

theorem placements_length (nfixed : ℕ) (ts : List FlatType) (i : ℕ) (al : AaAlloc) (xl : XxAlloc) :
    (placements nfixed ts i al xl).length = ts.length := by
  induction ts generalizing i al xl with
  | nil => rfl
  | cons t ts ih => simp [placements, ih]

def aaFinal (nfixed : ℕ) : List FlatType → ℕ → AaAlloc → AaAlloc
  | [], _, al => al
  | t :: ts, i, al => aaFinal nfixed ts (i + 1) (t.aaNext nfixed i al)

def xxFinal : List FlatType → XxAlloc → XxAlloc
  | [], xl => xl
  | t :: ts, xl => xxFinal ts (t.xxPlace xl).2

theorem aaFinal_append (nfixed : ℕ) (ts us : List FlatType) (i : ℕ) (al : AaAlloc) :
    aaFinal nfixed (ts ++ us) i al = aaFinal nfixed us (i + ts.length) (aaFinal nfixed ts i al) := by
  induction ts generalizing i al with
  | nil => rfl
  | cons t ts ih =>
    rw [cons_append, aaFinal, ih, length_cons, Nat.add_right_comm, Nat.add_assoc]
    rfl

theorem xxFinal_append (ts us : List FlatType) (xl : XxAlloc) :
    xxFinal (ts ++ us) xl = xxFinal us (xxFinal ts xl) := by
  induction ts generalizing xl with
  | nil => rfl
  | cons t ts ih => exact ih _

theorem placements_append (nfixed : ℕ) (ts us : List FlatType) (i : ℕ) (al : AaAlloc) (xl : XxAlloc) :
    placements nfixed (ts ++ us) i al xl = placements nfixed ts i al xl ++
      placements nfixed us (i + ts.length) (aaFinal nfixed ts i al) (xxFinal ts xl) := by
  induction ts generalizing i al xl with
  | nil => rfl
  | cons t ts ih =>
    rw [cons_append, placements, ih, length_cons, Nat.add_right_comm, Nat.add_assoc]
    rfl

theorem aaArgs_desc (nfixed : ℕ) (ts : List FlatType) (i : ℕ) (al : AaAlloc) (xl : XxAlloc) :
    aaArgs nfixed (ts.map FlatType.desc) i al =
      some ((placements nfixed ts i al xl).map Prod.fst, aaFinal nfixed ts i al) := by
  induction ts generalizing i al xl with
  | nil => rfl
  | cons t ts ih =>
    rw [map_cons, aaArgs, t.aaArg_desc al, Option.bind_some]
    change (aaArgs nfixed _ (i + 1) (t.aaNext nfixed i al)).map _ = _
    rw [ih (i + 1) (t.aaNext nfixed i al) (t.xxPlace xl).2]
    rfl

theorem xxArgs_desc (nfixed : ℕ) (ts : List FlatType) (i : ℕ) (al : AaAlloc) (xl : XxAlloc) :
    xxArgs (ts.map FlatType.desc) xl =
      some ((placements nfixed ts i al xl).map Prod.snd, xxFinal ts xl) := by
  induction ts generalizing i al xl with
  | nil => rfl
  | cons t ts ih =>
    rw [map_cons, xxArgs, t.xxArg_desc xl, Option.bind_some]
    change (xxArgs _ (t.xxPlace xl).2).map _ = _
    rw [ih (i + 1) (t.aaNext nfixed i al) (t.xxPlace xl).2]
    rfl

theorem mapM_initializeType (ts : List FlatType) :
    (ts.map FlatType.ffi).mapM initializeType = some (ts.map FlatType.desc) := by
  induction ts with
  | nil => rfl
  | cons t ts ih => simp [t.initializeType_ffi, ih]

namespace FlatType

theorem xxRetFlags_struct (s : Scalar) (ss : List Scalar) :
    xxRetFlags (struct s ss).desc = some (xxStructRet (struct s ss).size (struct s ss).classes) := by
  change (examineArgument (struct s ss).desc true).map _ = _
  rw [examineArgument_desc]
  rfl

theorem aaRetFlags_struct (s : Scalar) (ss : List Scalar) :
    aaRetFlags (struct s ss).desc =
      some (if vfpCode (struct s ss).vector = 0 then
        if (struct s ss).size > 16 then .inMem
        else if (struct s ss).size = 16 then .int128
        else if (struct s ss).size = 8 then .int64
        else .int128
      else .vfp (vfpCode (struct s ss).vector)) := by
  change (isVfpType (struct s ss).desc).map _ = _
  rw [isVfpType_desc]
  rfl

def result (t : FlatType) : ResultType where
  ffi := t.ffi
  desc := t.desc
  aaRet := (aaRetFlags t.desc).getD .void
  xxRet := (xxRetFlags t.desc).getD .void
  initializeType_ffi := t.initializeType_ffi
  aaRetFlags_desc := by
    rcases t with s | ⟨s, ss⟩
    · cases s <;> rfl
    · rw [aaRetFlags_struct]
      rfl
  xxRetFlags_desc := by
    rcases t with s | ⟨s, ss⟩
    · cases s <;> rfl
    · rw [xxRetFlags_struct]
      rfl

end FlatType

def ResultType.void : ResultType where
  ffi := .mk 1 1 .void []
  desc := .mk 1 1 .void []
  aaRet := .void
  xxRet := .void
  initializeType_ffi := rfl
  aaRetFlags_desc := rfl
  xxRetFlags_desc := rfl

namespace Signature

variable (σ : Signature)

def xxStart : XxAlloc := { gprcount := if σ.ret.xxRet = .inMem then 1 else 0 }

def places : List (ABIArgInfo AReg × ABIArgInfo XReg) :=
  placements σ.nfixed σ.args 0 {} σ.xxStart

def aaInfo : ABIFnInfo AReg where
  ainfo := σ.places.map Prod.fst
  rinfo := aaRetInfo σ.ret.aaRet
  bytes := (aaFinal σ.nfixed σ.args 0 {}).stackOffset

def xxInfo : ABIFnInfo XReg where
  ainfo := σ.places.map Prod.snd
  rinfo := xxRetInfo σ.ret.xxRet
  bytes := ffiAlign (xxFinal σ.args σ.xxStart).bytes 8
  ssecount := (xxFinal σ.args σ.xxStart).ssecount

theorem myXxFiPrepCif_eq : myXxFiPrepCif σ.ret.ffi σ.atypes = some σ.xxInfo := by
  unfold myXxFiPrepCif atypes
  rw [σ.ret.initializeType_ffi, Option.bind_some, mapM_initializeType, Option.bind_some,
    myXxFiPrepCifMachdep, σ.ret.xxRetFlags_desc, Option.bind_some,
    xxArgs_desc σ.nfixed σ.args 0 {} _]
  rfl

theorem myAaFiPrepCifCore_eq : myAaFiPrepCifCore σ.nfixed σ.ret.ffi σ.atypes = some σ.aaInfo := by
  unfold myAaFiPrepCifCore atypes
  rw [σ.ret.initializeType_ffi, Option.bind_some, mapM_initializeType, Option.bind_some,
    myAaFiPrepCifMachdep, σ.ret.aaRetFlags_desc, Option.bind_some,
    aaArgs_desc σ.nfixed σ.args 0 {} σ.xxStart]
  rfl

theorem fnInfos_eq : σ.fnInfos = some (σ.aaInfo, σ.xxInfo) := by
  have hle : σ.nfixed ≤ σ.atypes.length := by
    rw [atypes, length_map]
    exact σ.nfixed_le
  have haa := σ.myAaFiPrepCifCore_eq
  unfold fnInfos
  rw [myXxFiPrepCif_eq]
  by_cases h0 : σ.nfixed = 0
  · rw [h0] at haa
    simp [h0, myAaFiPrepCif, haa]
  · simp [h0, myAaFiPrepCifVar, hle, haa, show 1 ≤ σ.nfixed by omega]

end Signature

end Iqemu64
