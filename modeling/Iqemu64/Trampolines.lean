import Mathlib.Data.List.GetD
import Iqemu64.CodeGenFrame

/-!
# Trampolines

Host code enters guest code through trampolines. All kinds of them are found in one table keyed by the
address of what they stand for: a function, a callback or an Objective-C method. Those of callbacks
and methods start with a jump over a mark and a pointer, from which `objc_get_real_pc` recovers what
they stand for; those of plain functions do not.
-/

namespace Iqemu64
open ByteMemory TcgContext BitVec

structure ObjcMethod where
  methodName : BitVec 64
  methodTypes : BitVec 64
  methodImp : BitVec 64

structure IQemuBlockInfo where
  block : BitVec 64
  origInvoke : BitVec 64
  deriving DecidableEq

/-- What trampolines depend on and do not change: which addresses are guest code, the record of the
imps that were made from guest blocks, and the entry into the emulator. -/
structure EmulatedProcess where
  needEmulation : BitVec 64 → Bool
  myimpGetBlock : BitVec 64 → Option IQemuBlockInfo
  codeGenXloopTrampoline : BitVec 64

inductive ObjcMark where
  | x86 | arm | armBlock | callback
  deriving DecidableEq

def objcArmMark : ℕ := 0x5566dead
def objcArmBlockMark : ℕ := 0xdead5566
def callbackTrampolineMark : ℕ := 0xdeadbeef

inductive TrampolineCode where
  | common (origEntry entryTranslation exitTranslation : BitVec 64)
  | impBlock (m : BitVec 64) (method : ObjcMethod)
  | objc (m : BitVec 64) (method : ObjcMethod) (entryTranslation exitTranslation : BitVec 64)
  | callback (cb entryTranslation exitTranslation : BitVec 64)

inductive TrampolineKind where
  | common | impBlock | objc | callback
  deriving DecidableEq

namespace TrampolineCode

def kind : TrampolineCode → TrampolineKind
  | common _ _ _ => .common
  | impBlock _ _ => .impBlock
  | objc _ _ _ _ => .objc
  | callback _ _ _ => .callback

def key : TrampolineCode → BitVec 64
  | common orig _ _ => orig
  | impBlock m _ => m
  | objc m _ _ _ => m
  | callback cb _ _ => cb

def enterXloop (W : EmulatedProcess) (target entryTranslation exitTranslation : BitVec 64) :
    List EmitOp :=
  [.movi 2 target, .bytes [0x41, 0x52], .movi 2 entryTranslation, .movi 3 exitTranslation,
    .branch false W.codeGenXloopTrampoline]

def methodHeader (code mark : ℕ) (m : BitVec 64) (method : ObjcMethod) : List UInt8 :=
  [0xeb, 36] ++ leBytes 4 mark ++ leBytes 8 m.toNat ++ leBytes 8 method.methodName.toNat ++
    leBytes 8 method.methodTypes.toNat ++ leBytes 8 code

def callbackHeader (cb : BitVec 64) : List UInt8 :=
  [0xeb, 12] ++ leBytes 4 callbackTrampolineMark ++ leBytes 8 cb.toNat

def ops (W : EmulatedProcess) (code : ℕ) : TrampolineCode → List EmitOp
  | common orig entry exit => enterXloop W orig entry exit
  | impBlock m method =>
    [.bytes (methodHeader code objcArmBlockMark m method), .branch false method.methodImp]
  | objc m method entry exit =>
    .bytes (methodHeader code objcArmMark m method) :: enterXloop W method.methodImp entry exit
  | callback cb entry exit => .bytes (callbackHeader cb) :: enterXloop W cb entry exit

end TrampolineCode

/-- An entry of `tcg_ctx->trampolines`. The table itself holds the pointer; what it was made of is
kept here to speak about it. A host callback is its own trampoline. -/
structure Trampoline where
  made : Option TrampolineCode
  code : ℕ

structure TrampolineState where
  ctx : TcgContext
  method : BitVec 64 → ObjcMethod
  trampolines : BitVec 64 → Option Trampoline

namespace TrampolineState

variable (W : EmulatedProcess)

def emitUnit (fuel : ℕ) (s : TrampolineState) (ops : List EmitOp) : Option TrampolineState :=
  (s.ctx.codeGenUnit fuel ops).bind fun
    | (.ok, c) => some { s with ctx := c }
    | _ => none

def addTrampoline (s : TrampolineState) (key : BitVec 64) (e : Trampoline) : TrampolineState :=
  { s with trampolines := Function.update s.trampolines key (some e) }

def genTrampoline (fuel : ℕ) (s : TrampolineState) (key : BitVec 64) (made : TrampolineCode) :
    Option (ℕ × TrampolineState) :=
  (s.emitUnit fuel (made.ops W s.ctx.codeGenPtr)).map fun t =>
    (s.ctx.codeGenPtr, t.addTrampoline key ⟨some made, s.ctx.codeGenPtr⟩)

def queryAndAdd (fuel : ℕ) (s : TrampolineState) (key : BitVec 64) (made : TrampolineCode) :
    Option (ℕ × TrampolineState) :=
  match s.trampolines key with
  | some e => some (e.code, s)
  | none => s.genTrampoline W fuel key made

def commonQueryAndAddTrampoline (fuel : ℕ) (s : TrampolineState) (origEntry entry exit : BitVec 64) :
    Option (ℕ × TrampolineState) :=
  s.queryAndAdd W fuel origEntry (.common origEntry entry exit)

def objcImpBlockQueryAndAddTrampoline (fuel : ℕ) (s : TrampolineState) (m : BitVec 64) :
    Option (ℕ × TrampolineState) :=
  s.queryAndAdd W fuel m (.impBlock m (s.method m))

def objcQueryAndAddTrampoline (fuel : ℕ) (s : TrampolineState) (m entry exit : BitVec 64) :
    Option (ℕ × TrampolineState) :=
  s.queryAndAdd W fuel m (.objc m (s.method m) entry exit)

def callbackQueryAndAddTrampoline (fuel : ℕ) (s : TrampolineState) (cb entry exit : BitVec 64) :
    Option (ℕ × TrampolineState) :=
  match s.trampolines cb with
  | some e => some (e.code, s)
  | none =>
    if cb = 0 then some (0, s)
    else if W.needEmulation cb then s.genTrampoline W fuel cb (.callback cb entry exit)
    else some (cb.toNat, s.addTrampoline cb ⟨none, cb.toNat⟩)

/-- `objc_get_real_pc`: the mark, the guest address and, for a block, the block. `none` is the use of
a block record that does not exist. -/
def objcGetRealPc (s : TrampolineState) (pc : ℕ) :
    Option (ObjcMark × BitVec 64 × Option (BitVec 64)) :=
  let mark := s.ctx.mem.loadWord (pc + 2) 4
  let word := BitVec.ofNat 64 (s.ctx.mem.loadWord (pc + 6) 8)
  if mark = objcArmMark then some (.arm, (s.method word).methodImp, none)
  else if mark = objcArmBlockMark then
    (W.myimpGetBlock (s.method word).methodImp).map fun info =>
      (.armBlock, info.origInvoke, some info.block)
  else if mark = callbackTrampolineMark then some (.callback, word, none)
  else some (.x86, BitVec.ofNat 64 pc, none)

end TrampolineState

/-! ### Trampolines in place -/

def InPlace (ops : List EmitOp) (code : ℕ) (c : TcgContext) : Prop :=
  ∃ fuel s t, s.poolLabels = none ∧ s.codeGenPtr = code ∧
    TcgContext.codeGenUnit fuel s ops = some (.ok, t) ∧ t.codeGenPtr ≤ c.codeGenPtr ∧
      ∀ x, code ≤ x → x < t.codeGenPtr → c.mem x = t.mem x

theorem inPlace_codeGenUnit {fuel : ℕ} {s t : TcgContext} {ops : List EmitOp}
    (hempty : s.poolLabels = none) (ht : s.codeGenUnit fuel ops = some (.ok, t)) :
    InPlace ops s.codeGenPtr t :=
  ⟨fuel, s, t, hempty, rfl, ht, le_rfl, fun _ _ _ => rfl⟩

theorem InPlace.codeGenUnit {ops later : List EmitOp} {code fuel : ℕ} {s t : TcgContext}
    (h : InPlace ops code s) (hempty : s.poolLabels = none)
    (ht : s.codeGenUnit fuel later = some (.ok, t)) : InPlace ops code t := by
  obtain ⟨fuel₀, s₀, t₀, hempty₀, hcode, ht₀, hle, hmem⟩ := h
  obtain ⟨hup, hsame⟩ := codeGenUnit_own hempty ht
  refine ⟨fuel₀, s₀, t₀, hempty₀, hcode, ht₀, hle.trans hup, fun x hlo hhi => ?_⟩
  rw [hsame x (.inl (hhi.trans_le hle)), hmem x hlo hhi]

theorem InPlace.header {bs : List UInt8} {ops : List EmitOp} {code : ℕ} {c : TcgContext}
    (h : InPlace (.bytes bs :: ops) code c) {k : ℕ} (hk : k < bs.length) :
    c.mem (code + k) = bs.getD k 0 := by
  obtain ⟨fuel, s, t, hempty, rfl, ht, -, hmem⟩ := h
  obtain ⟨hle, hbytes⟩ := codeGenUnit_header hempty ht
  rw [hmem _ (by omega) (by omega), hbytes k hk]

theorem InPlace.loadWord {bs : List UInt8} {ops : List EmitOp} {code n v : ℕ} {c : TcgContext}
    (h : InPlace (.bytes bs :: ops) code c) (front back : List UInt8)
    (hbs : bs = front ++ leBytes n v ++ back) (hv : v < 256 ^ n) :
    c.mem.loadWord (code + front.length) n = v := by
  subst hbs
  rw [Mem.loadWord, ← Nat.mod_eq_of_lt hv, ← leWord_byteAt]
  refine leWord_congr n _ _ fun k hk => ?_
  rw [Nat.add_assoc, h.header (by simp; omega), List.append_assoc,
    List.getD_append_right _ _ _ _ (by omega), Nat.add_sub_cancel_left,
    List.getD_append _ _ _ _ (by simpa using hk)]
  simp [leBytes, hk]

theorem toNat_lt_word (v : BitVec 64) : v.toNat < 256 ^ 8 := v.isLt

section Headers
variable {code : ℕ} {ops : List EmitOp} {c : TcgContext}

theorem loadWord_callbackHeader {cb : BitVec 64}
    (h : InPlace (.bytes (TrampolineCode.callbackHeader cb) :: ops) code c) :
    c.mem.loadWord (code + 2) 4 = callbackTrampolineMark ∧
      c.mem.loadWord (code + 6) 8 = cb.toNat := by
  constructor
  · exact h.loadWord [0xeb, 12] _ rfl (by decide)
  · refine h.loadWord ([0xeb, 12] ++ leBytes 4 callbackTrampolineMark) [] ?_ (toNat_lt_word cb)
    rw [List.append_nil, TrampolineCode.callbackHeader]

theorem loadWord_methodHeader {mark : ℕ} {m : BitVec 64} {method : ObjcMethod}
    (hmark : mark < 256 ^ 4)
    (h : InPlace (.bytes (TrampolineCode.methodHeader code mark m method) :: ops) code c) :
    c.mem.loadWord (code + 2) 4 = mark ∧ c.mem.loadWord (code + 6) 8 = m.toNat := by
  constructor
  · refine h.loadWord [0xeb, 36] (leBytes 8 m.toNat ++ leBytes 8 method.methodName.toNat ++
      leBytes 8 method.methodTypes.toNat ++ leBytes 8 code) ?_ hmark
    simp only [TrampolineCode.methodHeader, List.append_assoc]
  · refine h.loadWord ([0xeb, 36] ++ leBytes 4 mark) (leBytes 8 method.methodName.toNat ++
      leBytes 8 method.methodTypes.toNat ++ leBytes 8 code) ?_ (toNat_lt_word m)
    simp only [TrampolineCode.methodHeader, List.append_assoc]

end Headers

/-! ### Requests -/

inductive TrampolineRequest where
  | translation (ops : List EmitOp)
  | common (origEntry entryTranslation exitTranslation : BitVec 64)
  | callback (cb entryTranslation exitTranslation : BitVec 64)
  | objc (m entryTranslation exitTranslation : BitVec 64)
  | impBlock (m : BitVec 64)

namespace TrampolineState

variable (W : EmulatedProcess)

def request (fuel : ℕ) (s : TrampolineState) : TrampolineRequest → Option (ℕ × TrampolineState)
  | .translation ops => (s.emitUnit fuel ops).map fun t => (s.ctx.codeGenPtr, t)
  | .common orig entry exit => s.commonQueryAndAddTrampoline W fuel orig entry exit
  | .callback cb entry exit => s.callbackQueryAndAddTrampoline W fuel cb entry exit
  | .objc m entry exit => s.objcQueryAndAddTrampoline W fuel m entry exit
  | .impBlock m => s.objcImpBlockQueryAndAddTrampoline W fuel m

def RequestStep (s : TrampolineState) (e : TrampolineRequest) (t : TrampolineState) : Prop :=
  ∃ fuel p, s.request W fuel e = some (p, t)

def AllInPlace (s : TrampolineState) : Prop :=
  ∀ key e made, s.trampolines key = some e → e.made = some made →
    made.key = key ∧ InPlace (made.ops W e.code) e.code s.ctx

variable {W}

variable {fuel : ℕ} {s t : TrampolineState}

theorem emitUnit_spec {ops : List EmitOp}
    (hempty : s.ctx.poolLabels = none) (h : AllInPlace W s) (ht : s.emitUnit fuel ops = some t) :
    AllInPlace W t ∧ InPlace ops s.ctx.codeGenPtr t.ctx ∧ t.trampolines = s.trampolines ∧
      t.method = s.method := by
  obtain ⟨⟨r, c⟩, hc, ht⟩ := Option.bind_eq_some_iff.mp ht
  cases r with
  | overflow => cases ht
  | tooLarge => cases ht
  | ok =>
    cases ht
    refine ⟨fun key e made he hmade => ?_, inPlace_codeGenUnit hempty hc, rfl, rfl⟩
    obtain ⟨hkey, hplace⟩ := h key e made he hmade
    exact ⟨hkey, hplace.codeGenUnit hempty hc⟩

theorem AllInPlace.addTrampoline (h : AllInPlace W s) {key : BitVec 64}
    {e : Trampoline}
    (he : ∀ made, e.made = some made → made.key = key ∧ InPlace (made.ops W e.code) e.code s.ctx) :
    AllInPlace W (s.addTrampoline key e) := by
  intro key' e' made he' hmade
  simp only [TrampolineState.addTrampoline] at he'
  by_cases hkey : key' = key
  · subst hkey
    rw [Function.update_self] at he'
    cases he'
    exact he made hmade
  · rw [Function.update_of_ne hkey] at he'
    exact h key' e' made he' hmade

structure Generated (W : EmulatedProcess) (made : TrampolineCode) (s : TrampolineState) (p : ℕ)
    (t : TrampolineState) : Prop where
  code : p = s.ctx.codeGenPtr
  trampolines : t.trampolines = Function.update s.trampolines made.key (some ⟨some made, p⟩)
  inPlace : InPlace (made.ops W p) p t.ctx

variable {p : ℕ}

theorem genTrampoline_spec (made : TrampolineCode)
    (hempty : s.ctx.poolLabels = none) (h : AllInPlace W s)
    (ht : s.genTrampoline W fuel made.key made = some (p, t)) :
    AllInPlace W t ∧ t.method = s.method ∧ Generated W made s p t := by
  obtain ⟨u, hu, heq⟩ := Option.map_eq_some_iff.mp ht
  cases heq
  obtain ⟨hall, hplace, htable, hmethod⟩ := emitUnit_spec hempty h hu
  refine ⟨hall.addTrampoline ?_, hmethod, rfl, ?_, hplace⟩
  · rintro _ ⟨⟩
    exact ⟨rfl, hplace⟩
  · rw [← htable]
    rfl

/-- The pointer that a request returns is that of a trampoline in place, either an old one for the
same key or the one asked for. -/
theorem queryAndAdd_spec (made : TrampolineCode)
    (hempty : s.ctx.poolLabels = none) (h : AllInPlace W s)
    (ht : s.queryAndAdd W fuel made.key made = some (p, t)) :
    AllInPlace W t ∧ t.method = s.method ∧
      ((∃ e, s.trampolines made.key = some e ∧ e.code = p ∧ t = s) ∨
        s.trampolines made.key = none ∧ Generated W made s p t) := by
  rw [queryAndAdd] at ht
  split at ht
  · rename_i e he
    cases ht
    exact ⟨h, rfl, .inl ⟨e, he, rfl, rfl⟩⟩
  · rename_i hnone
    obtain ⟨hall, hmethod, hgen⟩ := genTrampoline_spec made hempty h ht
    exact ⟨hall, hmethod, .inr ⟨hnone, hgen⟩⟩

variable {entry exit : BitVec 64}

theorem callback_spec {cb : BitVec 64}
    (hempty : s.ctx.poolLabels = none) (h : AllInPlace W s)
    (ht : s.callbackQueryAndAddTrampoline W fuel cb entry exit = some (p, t)) :
    AllInPlace W t ∧ t.method = s.method ∧ (W.needEmulation cb → cb ≠ 0 →
      (∃ e, s.trampolines cb = some e ∧ e.code = p ∧ t = s) ∨
        InPlace (TrampolineCode.ops W p (.callback cb entry exit)) p t.ctx) := by
  rw [callbackQueryAndAddTrampoline] at ht
  split at ht
  · rename_i e he
    cases ht
    exact ⟨h, rfl, fun _ _ => .inl ⟨e, he, rfl, rfl⟩⟩
  · split at ht
    · rename_i hzero
      cases ht
      exact ⟨h, rfl, fun _ hcb => absurd hzero hcb⟩
    · split at ht
      · obtain ⟨hall, hmethod, hgen⟩ :=
          genTrampoline_spec (.callback cb entry exit) hempty h ht
        exact ⟨hall, hmethod, fun _ _ => .inr hgen.inPlace⟩
      · rename_i hhost
        cases ht
        exact ⟨h.addTrampoline (fun _ hmade => nomatch hmade), rfl, fun hemu => absurd hemu hhost⟩

theorem request_allInPlace {e : TrampolineRequest}
    (hempty : s.ctx.poolLabels = none) (h : AllInPlace W s)
    (ht : s.request W fuel e = some (p, t)) : AllInPlace W t := by
  cases e with
  | translation ops =>
    obtain ⟨u, hu, heq⟩ := Option.map_eq_some_iff.mp ht
    cases heq
    exact (emitUnit_spec hempty h hu).1
  | common orig entry exit =>
    exact (queryAndAdd_spec (.common orig entry exit) hempty h ht).1
  | callback cb entry exit => exact (callback_spec hempty h ht).1
  | objc m entry exit =>
    exact (queryAndAdd_spec (.objc m (s.method m) entry exit) hempty h ht).1
  | impBlock m => exact (queryAndAdd_spec (.impBlock m (s.method m)) hempty h ht).1

/-! ### Inverting a trampoline -/

theorem objcGetRealPc_callback {cb : BitVec 64}
    (h : InPlace (TrampolineCode.ops W p (.callback cb entry exit)) p s.ctx) :
    s.objcGetRealPc W p = some (.callback, cb, none) := by
  obtain ⟨hmark, hword⟩ := loadWord_callbackHeader h
  simp only [objcGetRealPc, hmark, hword, ofNat_toNat, setWidth_eq]
  rfl

theorem objcGetRealPc_objc {m : BitVec 64}
    {method : ObjcMethod} (h : InPlace (TrampolineCode.ops W p (.objc m method entry exit)) p s.ctx) :
    s.objcGetRealPc W p = some (.arm, (s.method m).methodImp, none) := by
  obtain ⟨hmark, hword⟩ := loadWord_methodHeader (by decide) h
  simp only [objcGetRealPc, hmark, hword, ofNat_toNat, setWidth_eq, if_true]

theorem objcGetRealPc_impBlock {m : BitVec 64} {method : ObjcMethod}
    (h : InPlace (TrampolineCode.ops W p (.impBlock m method)) p s.ctx) :
    s.objcGetRealPc W p = (W.myimpGetBlock (s.method m).methodImp).map fun info =>
      (.armBlock, info.origInvoke, some info.block) := by
  obtain ⟨hmark, hword⟩ := loadWord_methodHeader (by decide) h
  simp only [objcGetRealPc, hmark, hword, ofNat_toNat, setWidth_eq, if_true]
  rfl

variable (W)

/-- From the pointer returned for a guest callback `objc_get_real_pc` recovers the callback, from the
one returned for a method its implementation. -/
def Inverted (s : TrampolineState) : TrampolineRequest → Prop
  | .callback cb entry exit => W.needEmulation cb → cb ≠ 0 → ∀ fuel p t,
      s.request W fuel (.callback cb entry exit) = some (p, t) →
        t.objcGetRealPc W p = some (.callback, cb, none)
  | .objc m entry exit => ∀ fuel p t, s.request W fuel (.objc m entry exit) = some (p, t) →
      t.objcGetRealPc W p = some (.arm, (t.method m).methodImp, none)
  | _ => True

/-- No reference to a pool word is left over, and a callback or method that has a trampoline got it by
a request of the same kind. -/
def KindKept (s : TrampolineState) (e : TrampolineRequest) : Prop :=
  s.ctx.poolLabels = none ∧ match e with
    | .callback cb _ _ => ∀ e, s.trampolines cb = some e →
        e.made.map TrampolineCode.kind = some .callback ∨ W.needEmulation cb = false
    | .objc m _ _ => ∀ e, s.trampolines m = some e → e.made.map TrampolineCode.kind = some .objc
    | _ => True

variable {W}

theorem AllInPlace.inverted {e : TrampolineRequest} (h : AllInPlace W s)
    (hkind : KindKept W s e) : Inverted W s e := by
  obtain ⟨hempty, hkind⟩ := hkind
  cases e with
  | callback cb entry exit =>
    intro hemu hcb fuel p t ht
    obtain ⟨-, -, hplace⟩ := callback_spec hempty h ht
    rcases hplace hemu hcb with ⟨e, he, rfl, rfl⟩ | hplace
    · obtain ⟨made, hmade, hcallback⟩ := Option.map_eq_some_iff.mp
        ((hkind e he).resolve_right (by simp [hemu]))
      obtain ⟨hkey, hold⟩ := h cb e made he hmade
      cases made with
      | callback cb' entry' exit' =>
        cases hkey
        exact objcGetRealPc_callback hold
      | common => cases hcallback
      | impBlock => cases hcallback
      | objc => cases hcallback
    · exact objcGetRealPc_callback hplace
  | objc m entry exit =>
    intro fuel p t ht
    obtain ⟨-, hmethod, hplace⟩ :=
      queryAndAdd_spec (.objc m (s.method m) entry exit) hempty h ht
    rcases hplace with ⟨e, he, rfl, rfl⟩ | ⟨-, hgen⟩
    · obtain ⟨made, hmade, hobjc⟩ := Option.map_eq_some_iff.mp (hkind e he)
      obtain ⟨hkey, hold⟩ := h m e made he hmade
      cases made with
      | objc m' method' entry' exit' =>
        cases hkey
        exact objcGetRealPc_objc hold
      | common => cases hobjc
      | impBlock => cases hobjc
      | callback => cases hobjc
    · exact objcGetRealPc_objc hgen.inPlace
  | translation => trivial
  | common => trivial
  | impBlock => trivial

end TrampolineState

/-- Trampolines are invertible in every sequence of requests in which no callback or method has a
trampoline of another kind. -/
theorem trampolines_inverted (W : EmulatedProcess) (s : TrampolineState)
    (hs : ∀ key, s.trampolines key = none) (es : List TrampolineRequest)
    (hkind : Runs.Along (TrampolineState.RequestStep W) (TrampolineState.KindKept W) s es) :
    Runs.Along (TrampolineState.RequestStep W) (TrampolineState.Inverted W) s es := by
  have hplace : TrampolineState.AllInPlace W s := fun key e made he => by simp [hs] at he
  have hinv := hkind.invariant (I := TrampolineState.AllInPlace W)
    (fun s e t hs h ⟨fuel, p, ht⟩ => TrampolineState.request_allInPlace h.1 hs ht) hplace
  exact hinv.mono fun _ _ h => h.1.inverted h.2

def exampleProcess : EmulatedProcess where
  needEmulation := fun a => 0x100000000 ≤ a.toNat
  myimpGetBlock := fun _ => none
  codeGenXloopTrampoline := 0x10800

def freshTrampolines : TrampolineState where
  ctx := freshContext
  method := fun _ => ⟨0, 0, 0x100002000⟩
  trampolines := fun _ => none

theorem trampolines_inverted_callback_twice :
    Runs.Along (TrampolineState.RequestStep exampleProcess) (TrampolineState.Inverted exampleProcess)
      freshTrampolines
      [.callback 0x100004000 0x11000 0x12000, .callback 0x100004000 0x11000 0x12000] := by
  refine trampolines_inverted _ _ (fun _ => rfl) _ ⟨⟨rfl, fun e he => by cases he⟩, ?_⟩
  rintro t ⟨fuel, p, ht⟩
  cases ht
  exact ⟨⟨rfl, fun e he => by cases he; exact .inl rfl⟩, fun _ _ => trivial⟩

/-- A function that has a trampoline as a plain function gets the same one as a callback. -/
theorem trampolines_inverted_common_callback :
    ¬ Runs.Along (TrampolineState.RequestStep exampleProcess)
      (TrampolineState.Inverted exampleProcess) freshTrampolines
      [.common 0x100004000 0x11000 0x12000, .callback 0x100004000 0x11000 0x12000] := by
  intro h
  obtain ⟨t, ht, hhit, hreal⟩ : ∃ t,
      TrampolineState.RequestStep exampleProcess freshTrampolines
        (.common 0x100004000 0x11000 0x12000) t ∧
      TrampolineState.request exampleProcess 0 t (.callback 0x100004000 0x11000 0x12000) =
        some (0x10000, t) ∧
      t.objcGetRealPc exampleProcess 0x10000 = some (.x86, 0x10000, none) :=
    ⟨_, ⟨0, _, rfl⟩, rfl, rfl⟩
  have hcallback := (h.2 t ht).1 rfl (by decide) 0 _ t hhit
  rw [hreal] at hcallback
  cases hcallback

end Iqemu64
