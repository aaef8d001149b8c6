import Iqemu64.AcceptedFormats
import Iqemu64.PrintfValues

/-!
# Calls with a va_list

On iOS a `va_list` is the address of the variable arguments. `abiValistA2xPrepareArgs` translates them
from there as `abiDyA2xEntryTranslation` does from the stack pointer, so that both prepare the same
x86-64 arguments.
-/

namespace Iqemu64
open ByteMemory CString StepChain List FormatCall

def abiValistA2xPrepareArgs (L : EnvLayout) (env argSpace sret : ℕ) (aaInfo : ABIFnInfo AReg)
    (xxInfo : ABIFnInfo XReg) (idxOfValist : ℕ) (m : Mem) : Option Mem :=
  if idxOfValist ≤ 7 then
    abiDyA2xEntryTransInternal L env argSpace (m.loadWord (env + 8 * idxOfValist) 8) sret aaInfo xxInfo m
  else none

def ABIArgInfo.assigned (x : ABIArgInfo XReg) : ℕ := if x.teIsMem then x.size else 8 * x.teNumOfReg

structure BlockSeparate (L : EnvLayout) (env argSpace sp n : ℕ) (xxInfo : ABIFnInfo XReg) : Prop where
  state : ∀ o < L.size, ¬ DyArea argSpace xxInfo.bytes (env + o)
  slots : ∀ o < 8 * n, ¬ DyArea argSpace xxInfo.bytes (sp + o)

structure CallSite (L : EnvLayout) (nfixed : ℕ) (aa : ABIFnInfo AReg) (xx : ABIFnInfo XReg) where
  env : ℕ
  argSpace : ℕ
  sp : ℕ
  mem : Mem
  separate : BlockSeparate L env argSpace sp (aa.ainfo.length - nfixed) xx

structure SameArguments {L : EnvLayout} {nfixed : ℕ} {aa : ABIFnInfo AReg} {xx : ABIFnInfo XReg}
    (s s' : CallSite L nfixed aa xx) : Prop where
  regs : ∀ g < nfixed, ∀ k < 8, s.mem (s.env + 8 * g + k) = s'.mem (s'.env + 8 * g + k)
  slots : ∀ o < 8 * (aa.ainfo.length - nfixed), s.mem (s.sp + o) = s'.mem (s'.sp + o)

/-- A call with a `va_list` and one with an ellipsis prepare the same arguments. -/
def ValistAgrees (idxOfValist : ℕ) (str : List Char) : Prop :=
  ∀ fuel aa xx, parseFmtstr fuel idxOfValist str = .ok (some (aa, xx)) →
    ∀ (L : EnvLayout) (s s' : CallSite L idxOfValist aa xx) (sret sret' : ℕ),
      s.sp = s.mem.loadWord (s.env + 8 * idxOfValist) 8 → s'.sp = s'.mem.loadWord (s'.env + spOffset) 8 →
      SameArguments s s' →
      ∃ m m', abiValistA2xPrepareArgs L s.env s.argSpace sret aa xx idxOfValist s.mem = some m ∧
        abiDyA2xEntryTranslation L s'.env s'.argSpace sret' aa xx s'.mem = some m' ∧
        ∀ (i : ℕ) (x : ABIArgInfo XReg), xx.ainfo[i]? = some x → ∀ k < x.assigned,
          x.hostByte (dyHostView s.argSpace m) k = x.hostByte (dyHostView s'.argSpace m') k


section Counters

theorem aaPlace_general {ty : ArgType} (h : ty.isGeneral = true) {al : AaAlloc}
    (hfit : al.gprcount + 1 ≤ 8) : ty.flat.aaPlace al =
      (aaInRegs .x al.gprcount 1 ty.flat.size, { al with gprcount := al.gprcount + 1 }) := by
  have hv : ty.flat.vector = none := by
    cases ty <;> first | rfl | exact absurd h (by decide)
  have hpos := ty.flat.size_pos
  have hsize : ty.flat.size ≤ 8 := by cases ty <;> decide
  have hone : (ty.flat.size + 7) / 8 = 1 := by omega
  unfold FlatType.aaPlace
  rw [hv]
  simp only [hone]
  rw [if_neg (by omega), AaAlloc.passInGpr, if_pos hfit]

/-- General arguments before the last fixed one take one register each. -/
theorem aaFinal_general (nfixed i : ℕ) {tys : List ArgType} (h : ∀ ty ∈ tys, ty.isGeneral = true)
    (hlt : i + tys.length < nfixed) (hle : nfixed ≤ 8) :
    aaFinal nfixed (tys.map ArgType.flat) i { gprcount := i } = { gprcount := i + tys.length } := by
  induction tys generalizing i with
  | nil => rfl
  | cons ty tys ih =>
    rw [length_cons] at hlt
    have hnext : ty.flat.aaNext nfixed i { gprcount := i } = { gprcount := i + 1 } := by
      rw [FlatType.aaNext, if_neg (by omega), aaPlace_general (h ty mem_cons_self) (by simp; omega)]
    rw [map_cons, aaFinal, hnext, ih (i + 1) (forall_mem_cons.mp h).2 (by omega),
      length_cons]
    congr 1
    omega

theorem aaFinal_variadic {fixed : List ArgType} (h : ∀ ty ∈ fixed, ty.isGeneral = true)
    (hpos : 0 < fixed.length) (hle : fixed.length ≤ 8) :
    (aaFinal fixed.length (fixed.map ArgType.flat) 0 {}).Variadic 0 := by
  rcases eq_nil_or_concat fixed with rfl | ⟨init, last, rfl⟩
  · exact absurd hpos (by decide)
  · rw [concat_eq_append] at h hle ⊢
    rw [length_append, length_singleton] at hle ⊢
    have hinit := aaFinal_general (init.length + 1) 0
      (fun ty hty => h ty (mem_append_left _ hty)) (by omega) hle
    rw [map_append, aaFinal_append, hinit, length_map, Nat.zero_add]
    -- the last fixed argument ends the use of registers
    change ((last.flat.aaNext (init.length + 1) init.length { gprcount := init.length })).Variadic 0
    rw [FlatType.aaNext, if_pos rfl]
    rw [aaPlace_general (h last (by simp)) hle]
    exact ⟨rfl, rfl, rfl, rfl⟩

variable {nfixed : ℕ} {c : FormatCall nfixed} {pre post : List ArgType} {ty : ArgType}

/-- A fixed argument is in its general register, and a variable one in its slot. -/
theorem FormatCall.aaPlace_eq (hpos : 0 < nfixed) (hle : nfixed ≤ 8) (htys : c.tys = pre ++ ty :: post) :
    (pre.length < nfixed ∧ ty.isGeneral = true ∧
        (ty.flat.aaPlace (c.signature.countersAt (pre.map ArgType.flat)).1).1 =
          aaInRegs .x pre.length 1 ty.flat.size) ∨
      (nfixed ≤ pre.length ∧ (ty.flat.aaPlace (c.signature.countersAt (pre.map ArgType.flat)).1).1 =
        aaOnStack (8 * (pre.length - nfixed)) ty.flat.size) := by
  have hgeneral := c.general
  rw [htys] at hgeneral
  rcases lt_or_ge pre.length nfixed with hlt | hge
  · have htake : ∀ ty' ∈ pre ++ [ty], ty'.isGeneral = true := by
      intro ty' hty'
      refine hgeneral ty' ?_
      rw [append_cons, take_append, take_of_length_le (by simp; omega)]
      exact mem_append_left _ hty'
    refine Or.inl ⟨hlt, htake ty (by simp), ?_⟩
    have hat : (c.signature.countersAt (pre.map ArgType.flat)).1 = { gprcount := pre.length } := by
      have := aaFinal_general nfixed 0 (fun ty hty => htake ty (by simp [hty]))
        (show 0 + pre.length < nfixed by omega) hle
      rw [Nat.zero_add] at this
      exact this
    rw [hat, aaPlace_general (htake ty (by simp)) (by simp; omega)]
  · refine Or.inr ⟨hge, ?_⟩
    have hfixed : ∀ ty' ∈ pre.take nfixed, ty'.isGeneral = true := by
      rw [take_append_of_le_length hge] at hgeneral
      exact hgeneral
    have hlen : (pre.take nfixed).length = nfixed := length_take_of_le hge
    have hat : (c.signature.countersAt (pre.map ArgType.flat)).1.Variadic (8 * (pre.length - nfixed)) := by
      have h := (aaFinal_variadic hfixed (by omega) (by omega)).aaFinal (pre.drop nfixed)
        (le_refl (pre.take nfixed).length)
      have hsplit : pre.map ArgType.flat = (pre.take nfixed).map ArgType.flat ++
          (pre.drop nfixed).map ArgType.flat := by
        rw [← map_append, take_append_drop]
      rw [hlen, length_drop, Nat.zero_add] at h
      change (aaFinal nfixed (pre.map ArgType.flat) 0 {}).Variadic _
      rw [hsplit, aaFinal_append, length_map, hlen, Nat.zero_add]
      exact h
    exact (hat.aaPlace ty).1

end Counters

structure OneMove (a : ABIArgInfo AReg) (x : ABIArgInfo XReg) (off size : ℕ)
    (widening : Option (Bool × ℕ)) : Prop where
  dyArg_eq : ∀ (L : EnvLayout) (env argSpace sp : ℕ) (m : Mem), dyArg L env argSpace sp a x m =
    some (Move.run ⟨argSpace + off, a.slotAddr L env sp, size, widening⟩ m)
  hostByte_eq : ∀ (argSpace : ℕ) (m : Mem), ∀ k < x.assigned,
    x.hostByte (dyHostView argSpace m) k = m (argSpace + off + k)
  size_le : size ≤ 8
  assigned_le : x.assigned ≤ size
  sound : ∀ signed width, widening = some (signed, width) → (width = 1 ∨ width = 2) ∧ width ≤ size

section Moves
variable {ty : ArgType} {xl : XxAlloc}

/-- The x86-64 place of a code is one register or its bytes on the stack. -/
theorem xxPlace_code (ty : ArgType) (xl : XxAlloc) :
    (∃ r, r.isXmm = !ty.isGeneral ∧ (ty.flat.xxPlace xl).1 =
        { loc := .regs [(r, ty.flat.locInfo)], size := ty.flat.size }) ∨
      (ty.flat.xxPlace xl).1 = { loc := .mem (ffiAlign xl.bytes 8) ty.flat.locInfo, size := ty.flat.size } := by
  unfold FlatType.xxPlace
  split_ifs
  · exact Or.inr rfl
  · left
    cases ty with
    | double => exact ⟨.xmm xl.ssecount, rfl, rfl⟩
    | int | uint | pointer | char | none => exact ⟨xxGpr xl.gprcount, isXmm_xxGpr _, rfl⟩

theorem locInfo_code (ty : ArgType) :
    ty.flat.locInfo.widening = none ∨ ty.flat.size = 1 ∧ ty.flat.locInfo.widening = some (true, 1) := by
  cases ty <;> first | exact Or.inl rfl | exact Or.inr ⟨rfl, rfl⟩

theorem sound_code (ty : ArgType) {size : ℕ} (hsize : 1 ≤ size) :
    ∀ signed width, ty.flat.locInfo.widening = some (signed, width) →
      (width = 1 ∨ width = 2) ∧ width ≤ size := by
  intro signed width h
  rcases locInfo_code ty with hn | ⟨-, hs⟩
  · exact nomatch hn.symm.trans h
  · obtain ⟨-, rfl⟩ := Prod.mk.inj (Option.some.inj (hs.symm.trans h))
    exact ⟨Or.inl rfl, hsize⟩

theorem oneMove_register (h : ty.isGeneral = true) (g : ℕ) : ∃ off size widening,
    OneMove (aaInRegs .x g 1 ty.flat.size) (ty.flat.xxPlace xl).1 off size widening := by
  have hpos := ty.flat.size_pos
  have hsize : ty.flat.size ≤ 8 := by cases ty <;> decide
  rcases xxPlace_code ty xl with ⟨r, hr, hx⟩ | hx
  · rw [h] at hr
    refine ⟨x64Enum2Ptr r, 8, ty.flat.locInfo.widening, ?_⟩
    rw [hx]
    refine ⟨fun L env argSpace sp m => ?_, fun argSpace m k hk => ?_, le_rfl, le_rfl,
      sound_code ty (by decide)⟩
    · change some (runMoves [if r.isXmm then _ else dyToReg argSpace r (dySrc L env (some (.x g))) 8
        ty.flat.locInfo] m) = _
      rw [hr]
      rfl
    · rw [hostByte_register hk]
      rfl
  · refine ⟨registerArgsSize + ffiAlign xl.bytes 8, 8, ty.flat.locInfo.widening, ?_⟩
    rw [hx]
    refine ⟨fun L env argSpace sp m => ?_, fun argSpace m k hk => ?_, le_rfl, hsize,
      sound_code ty (by decide)⟩
    · have hne : ¬ 1 * 16 = ty.flat.size := by omega
      change some (runMoves [if 1 * 16 = ty.flat.size then _ else dyToStack argSpace
        (ffiAlign xl.bytes 8 + 8 * 0) (dySrc L env (some (.x g))) 8 ty.flat.locInfo] m) = _
      rw [if_neg hne, dyToStack, Nat.mul_zero, Nat.add_zero, Nat.add_assoc]
      rfl
    · change m (argSpace + registerArgsSize + (ffiAlign xl.bytes 8 + k)) = _
      simp only [Nat.add_assoc]

theorem oneMove_slot (ty : ArgType) (xl : XxAlloc) (o : ℕ) : ∃ off size widening,
    OneMove (aaOnStack o ty.flat.size) (ty.flat.xxPlace xl).1 off size widening := by
  have hpos := ty.flat.size_pos
  have hsize : ty.flat.size ≤ 8 := by cases ty <;> decide
  rcases xxPlace_code ty xl with ⟨r, hr, hx⟩ | hx
  · refine ⟨x64Enum2Ptr r, 8, ty.flat.locInfo.widening, ?_⟩
    rw [hx]
    refine ⟨fun L env argSpace sp m => ?_, fun argSpace m k hk => ?_, le_rfl, le_rfl,
      sound_code ty (by decide)⟩
    · have hne : ¬ 1 * 16 = ty.flat.size := by omega
      change some (runMoves [if 1 * 16 = ty.flat.size then _ else dyToReg argSpace r (sp + o + 8 * 0) 8
        ty.flat.locInfo] m) = _
      rw [if_neg hne]
      rfl
    · rw [hostByte_register hk]
      rfl
  · refine ⟨registerArgsSize + ffiAlign xl.bytes 8, ty.flat.size, ty.flat.locInfo.widening, ?_⟩
    rw [hx]
    refine ⟨fun L env argSpace sp m => ?_, fun argSpace m k hk => ?_, hsize, le_rfl,
      sound_code ty hpos⟩
    · have hinfo : (if ty.flat.size ≤ 2 then ty.flat.locInfo else .noLocInfo).widening =
          ty.flat.locInfo.widening := by
        rcases locInfo_code ty with hn | ⟨hone, -⟩
        · split_ifs
          · rfl
          · exact hn.symm
        · rw [if_pos (by omega)]
      change (if ty.flat.size = ty.flat.size then some (runMoves [dyToStack argSpace
        (ffiAlign xl.bytes 8) (sp + o) ty.flat.size
          (if ty.flat.size ≤ 2 then ty.flat.locInfo else .noLocInfo)] m) else none) = _
      rw [if_pos rfl, dyToStack, hinfo, Nat.add_assoc]
      rfl
    · change m (argSpace + registerArgsSize + (ffiAlign xl.bytes 8 + k)) = _
      simp only [Nat.add_assoc]

end Moves

section Agreement
variable {L : EnvLayout} {nfixed : ℕ} {c : FormatCall nfixed} {pre post : List ArgType} {ty : ArgType}

theorem FormatCall.args_eq (htys : c.tys = pre ++ ty :: post) : c.signature.args =
    pre.map ArgType.flat ++ ty.flat :: post.map ArgType.flat := by
  simp [signature, codeSignature, htys]

theorem FormatCall.length_ainfo (c : FormatCall nfixed) : c.signature.aaInfo.ainfo.length = c.tys.length := by
  simp [Signature.aaInfo, Signature.places, placements_length, signature, codeSignature]

/-- The loop's final bytes of an argument, by its one move from a memory that has the guest's bytes. -/
theorem FormatCall.hostByte_final (htys : c.tys = pre ++ ty :: post) {env argSpace sp off size : ℕ}
    {widening : Option (Bool × ℕ)} {m m' : Mem}
    (hmove : OneMove (ty.flat.aaPlace (c.signature.countersAt (pre.map ArgType.flat)).1).1
      (ty.flat.xxPlace (c.signature.countersAt (pre.map ArgType.flat)).2).1 off size widening)
    (hrun : (dySteps L env argSpace sp c.signature.aaInfo.bytes c.signature.xxInfo.bytes m).run
      c.signature.places m = some m') (v : ℕ) :
    ∃ m₁, (∀ a, ¬ DyArea argSpace c.signature.xxInfo.bytes a → m₁ a = m a) ∧
      ∀ k < (ty.flat.xxPlace (c.signature.countersAt (pre.map ArgType.flat)).2).1.assigned,
        ABIArgInfo.hostByte (dyHostView argSpace (m'.storeWord (argSpace + 176) 8 v))
            (ty.flat.xxPlace (c.signature.countersAt (pre.map ArgType.flat)).2).1 k =
          Move.run ⟨argSpace + off, (ty.flat.aaPlace (c.signature.countersAt
            (pre.map ArgType.flat)).1).1.slotAddr L env sp, size, widening⟩ m₁ (argSpace + off + k) := by
  obtain ⟨-, m₁, m₂, hout, -, hstep, hagree⟩ := dyArgs_step c.signature (codeSignature_floatFree _)
    (args_eq htys) hrun
  rw [hmove.dyArg_eq] at hstep
  cases hstep
  have hpos := ty.flat.size_pos
  refine ⟨m₁, hout, fun k hk => ?_⟩
  have hk8 : k < ffiAlign ty.flat.size 8 := by
    have := hmove.assigned_le
    have := hmove.size_le
    rw [ffiAlign_eight]
    omega
  rw [(xxPlaced_xxPlace ty.flat _).hostByte_congr (hagree v) hk8]
  exact hmove.hostByte_eq argSpace _ k hk

/-- The bytes that an argument's move reads are the same in two states with the same arguments. -/
theorem FormatCall.source_eq (hpos : 0 < nfixed) (hle : nfixed ≤ 8) (htys : c.tys = pre ++ ty :: post)
    {s s' : CallSite L nfixed c.signature.aaInfo c.signature.xxInfo} (hsame : SameArguments s s') :
    ∀ k < 8, s.mem ((ty.flat.aaPlace (c.signature.countersAt (pre.map ArgType.flat)).1).1.slotAddr L
          s.env s.sp + k) =
        s'.mem ((ty.flat.aaPlace (c.signature.countersAt (pre.map ArgType.flat)).1).1.slotAddr L
          s'.env s'.sp + k) ∧
      ¬ DyArea s.argSpace c.signature.xxInfo.bytes ((ty.flat.aaPlace (c.signature.countersAt
        (pre.map ArgType.flat)).1).1.slotAddr L s.env s.sp + k) ∧
      ¬ DyArea s'.argSpace c.signature.xxInfo.bytes ((ty.flat.aaPlace (c.signature.countersAt
        (pre.map ArgType.flat)).1).1.slotAddr L s'.env s'.sp + k) := by
  intro k hk
  have hlen := c.length_ainfo
  have htlen : c.tys.length = pre.length + 1 + post.length := by
    rw [htys]
    simp
    omega
  rcases aaPlace_eq hpos hle htys with ⟨hlt, -, ha⟩ | ⟨hge, ha⟩
  · rw [ha]
    have hL : 264 ≤ L.size := by
      have := L.zregs_ge
      unfold EnvLayout.size
      omega
    change s.mem (s.env + 8 * pre.length + k) = s'.mem (s'.env + 8 * pre.length + k) ∧
      ¬ DyArea _ _ (s.env + 8 * pre.length + k) ∧ ¬ DyArea _ _ (s'.env + 8 * pre.length + k)
    refine ⟨hsame.regs _ hlt k hk, ?_, ?_⟩
    · rw [Nat.add_assoc]
      exact s.separate.state _ (by omega)
    · rw [Nat.add_assoc]
      exact s'.separate.state _ (by omega)
  · rw [ha]
    change s.mem (s.sp + 8 * (pre.length - nfixed) + k) = s'.mem (s'.sp + 8 * (pre.length - nfixed) + k) ∧
      ¬ DyArea _ _ (s.sp + 8 * (pre.length - nfixed) + k) ∧
      ¬ DyArea _ _ (s'.sp + 8 * (pre.length - nfixed) + k)
    simp only [Nat.add_assoc]
    exact ⟨hsame.slots _ (by omega), s.separate.slots _ (by omega), s'.separate.slots _ (by omega)⟩

/-- The same arguments arrive from two states, wherever the variable ones are. -/
theorem FormatCall.agrees (c : FormatCall nfixed) (hpos : 0 < nfixed) (hle : nfixed ≤ 8)
    {s s' : CallSite L nfixed c.signature.aaInfo c.signature.xxInfo} (hsame : SameArguments s s')
    (sret sret' : ℕ) :
    ∃ m m', abiDyA2xEntryTransInternal L s.env s.argSpace s.sp sret c.signature.aaInfo
          c.signature.xxInfo s.mem = some m ∧
        abiDyA2xEntryTransInternal L s'.env s'.argSpace s'.sp sret' c.signature.aaInfo
          c.signature.xxInfo s'.mem = some m' ∧
        ∀ (i : ℕ) (x : ABIArgInfo XReg), c.signature.xxInfo.ainfo[i]? = some x → ∀ k < x.assigned,
          x.hostByte (dyHostView s.argSpace m) k = x.hostByte (dyHostView s'.argSpace m') k := by
  obtain ⟨m, hcall, hrun⟩ := codeSignature_run c.ret c.tys nfixed c.nfixed_le L s.env s.argSpace s.sp
    sret s.mem
  obtain ⟨m', hcall', hrun'⟩ := codeSignature_run c.ret c.tys nfixed c.nfixed_le L s'.env s'.argSpace
    s'.sp sret' s'.mem
  refine ⟨_, _, hcall, hcall', fun i x hx k hk => ?_⟩
  obtain ⟨hi, -⟩ := List.getElem?_eq_some_iff.mp hx
  have hi' : i < c.tys.length := by
    rw [← c.length_ainfo]
    simpa [Signature.aaInfo, Signature.xxInfo] using hi
  -- the argument among the others
  obtain ⟨pre, ty, post, htys, rfl⟩ : ∃ pre ty post, c.tys = pre ++ ty :: post ∧ pre.length = i := by
    refine ⟨c.tys.take i, c.tys[i], c.tys.drop (i + 1), ?_, length_take_of_le hi'.le⟩
    rw [← drop_eq_getElem_cons hi', take_append_drop]
  have hplace := Signature.getElem?_places (args_eq htys)
  rw [length_map] at hplace
  rw [Signature.xxInfo, getElem?_map, hplace] at hx
  cases hx
  have hmove : ∃ off size widening, OneMove (ty.flat.aaPlace (c.signature.countersAt
      (pre.map ArgType.flat)).1).1 (ty.flat.xxPlace (c.signature.countersAt
        (pre.map ArgType.flat)).2).1 off size widening := by
    rcases aaPlace_eq hpos hle htys with ⟨-, hty, ha⟩ | ⟨-, ha⟩
    · rw [ha]
      exact oneMove_register hty _
    · rw [ha]
      exact oneMove_slot ty _ _
  obtain ⟨off, size, widening, hmove⟩ := hmove
  obtain ⟨m₁, hout, hbyte⟩ := hostByte_final htys hmove hrun c.signature.xxInfo.ssecount
  obtain ⟨m₁', hout', hbyte'⟩ :=
    hostByte_final htys hmove hrun' c.signature.xxInfo.ssecount
  have hsrc := source_eq hpos hle htys hsame
  refine (hbyte k hk).trans (Eq.trans ?_ (hbyte' k hk).symm)
  change k < (ty.flat.xxPlace (c.signature.countersAt (pre.map ArgType.flat)).2).1.assigned at hk
  apply Move.run_congr ⟨s.argSpace + off, _, size, widening⟩ ⟨s'.argSpace + off, _, size, widening⟩ ?_ ?_
    hmove.sound (fun j hj => ?_) (hk.trans_le hmove.assigned_le)
  · rfl
  · rfl
  obtain ⟨heq, hs, hs'⟩ := hsrc j (lt_of_lt_of_le hj hmove.size_le)
  rw [hout _ hs, hout' _ hs']
  exact heq

end Agreement

/-- Calls with a `va_list` and with an ellipsis agree for every format string whose written-out
positions do not wrap around. -/
theorem valistAgrees_of_positionsFit (idxOfValist : ℕ) (hpos : 1 ≤ idxOfValist) (hle : idxOfValist ≤ 7)
    (str : List Char) (hfit : PositionsFit idxOfValist str) : ValistAgrees idxOfValist str := by
  intro fuel aa xx hparse L s s' sret sret' hsp hsp' hsame
  obtain ⟨c, rfl, rfl⟩ := parseFmtstr_accepted (by omega) (by unfold invalidValue; omega) hfit hparse
  obtain ⟨m, m', hcall, hcall', hbytes⟩ := c.agrees (by omega) (by omega) hsame sret sret'
  refine ⟨m, m', ?_, ?_, hbytes⟩
  · rw [abiValistA2xPrepareArgs, if_pos hle, ← hsp]
    exact hcall
  · rw [abiDyA2xEntryTranslation, ← hsp']
    exact hcall'

theorem valistAgrees_decimal :
    (∃ infos, parseFmtstr 2 1 ['%', 'd'] = .ok (some infos)) ∧ ValistAgrees 1 ['%', 'd'] := by
  refine ⟨⟨_, parseFmtstr_unnumbered [.conversion (FormatString.plainSpec () .d)] (by decide)
    (by decide) (by decide)⟩, valistAgrees_of_positionsFit 1 (by decide) (by decide) _ fun s hs h => ?_⟩
  rw [← mem_tails] at hs
  simp only [tails, mem_cons, not_mem_nil, or_false] at hs
  rcases hs with rfl | rfl | rfl <;> exact absurd h (by decide)

/-- Position 4294967295 after two fixed arguments is the first fixed one. -/
def wrappedFormat : List Char := ['%', '4', '2', '9', '4', '9', '6', '7', '2', '9', '5', '$', 'f']

def wrappedCall : Signature := codeSignature .pointer [.double, .pointer] 2 (by decide)

theorem parseFmtstr_wrappedFormat :
    parseFmtstr 2 2 wrappedFormat = .ok (some (wrappedCall.aaInfo, wrappedCall.xxInfo)) := by
  have htypes : fmtstrTypes 2 2 wrappedFormat = .ok ([.pointer, .double, .pointer].map ArgType.code) := rfl
  rw [parseFmtstr, htypes]
  exact getVariFnInfoFromTypes_codes (by decide) (by decide) (by decide) _ (by decide)

def vectorSite (b : UInt8) : CallSite .least 2 wrappedCall.aaInfo wrappedCall.xxInfo where
  env := 0
  argSpace := 65536
  sp := 0
  mem a := if a = 272 then b else 0
  separate := by
    have hsize : EnvLayout.least.size = 8464 := rfl
    have hslots : wrappedCall.aaInfo.ainfo.length - 2 = 0 := rfl
    refine ⟨fun o ho h => ?_, fun o ho => ?_⟩
    · have := h.1
      omega
    · omega

theorem not_valistAgrees_wrapped : ¬ ValistAgrees 2 wrappedFormat := by
  intro h
  have hsame : SameArguments (vectorSite 0) (vectorSite 1) := by
    refine ⟨fun g hg k hk => ?_, fun o ho => ?_⟩
    · change (if 0 + 8 * g + k = 272 then _ else _) = if 0 + 8 * g + k = 272 then _ else _
      rw [if_neg (by omega), if_neg (by omega)]
    · exact absurd ho (Nat.not_lt_zero o)
  obtain ⟨m, m', hcall, hcall', hbytes⟩ := h 2 _ _ parseFmtstr_wrappedFormat .least (vectorSite 0)
    (vectorSite 1) 0 0 rfl rfl hsame
  have hbyte := hbytes 0 _ rfl 0 (by decide)
  cases hcall
  cases hcall'
  exact absurd hbyte (by decide)

end Iqemu64
