import Iqemu64.HostTarget

/-!
# Method lookup

`MygetMethodNoSuper_nolock` replaces a method whose implementation is guest code by the copy in the
method's trampoline. The trampoline holds the implementation that the method had when it was made,
while `objc_get_real_pc` reads the one the method has now.
-/

namespace Iqemu64
open ByteMemory TcgContext Option TrampolineCode

inductive FoundMethod where
  | real (m : BitVec 64)
  | copy (p : ℕ)
  deriving DecidableEq

inductive MethodEvent where
  | lookup (m entryTranslation exitTranslation : BitVec 64)
  | setImplementation (m imp : BitVec 64)
  | translation (ops : List EmitOp)

def TrampolineCode.builtImp : TrampolineCode → Option (BitVec 64)
  | .impBlock _ method => some method.methodImp
  | .objc _ method _ _ => some method.methodImp
  | .common _ _ _ => none
  | .callback _ _ _ => none

namespace TrampolineState

variable (W : EmulatedProcess)

/-- `MygetMethodNoSuper_nolock` for a method that was found. That the block's invoke function is set to
its trampoline is left out. -/
def mygetMethodNoSuper (fuel : ℕ) (s : TrampolineState) (m entry exit : BitVec 64) :
    Option (FoundMethod × TrampolineState) :=
  let imp := (s.method m).methodImp
  if W.needEmulation imp then
    (s.objcQueryAndAddTrampoline W fuel m entry exit).map fun r => (.copy r.1, r.2)
  else match W.myimpGetBlock imp with
    | none => some (.real m, s)
    | some info =>
      (s.commonQueryAndAddTrampoline W fuel info.origInvoke entry exit).bind fun r =>
        (r.2.objcImpBlockQueryAndAddTrampoline W fuel m).map fun r => (.copy r.1, r.2)

def foundImp (s : TrampolineState) : FoundMethod → BitVec 64
  | .real m => (s.method m).methodImp
  | .copy p => BitVec.ofNat 64 (s.ctx.mem.loadWord (p + 14 + 16) 8)

def setImplementation (s : TrampolineState) (m imp : BitVec 64) : TrampolineState :=
  { s with method := Function.update s.method m { s.method m with methodImp := imp } }

def methodStep (fuel : ℕ) (s : TrampolineState) : MethodEvent → Option TrampolineState
  | .lookup m entry exit => (s.mygetMethodNoSuper W fuel m entry exit).map Prod.snd
  | .setImplementation m imp => some (s.setImplementation m imp)
  | .translation ops => s.emitUnit fuel ops

def MethodStep (s : TrampolineState) (e : MethodEvent) (t : TrampolineState) : Prop :=
  ∃ fuel, s.methodStep W fuel e = some t

/-- Callers of what was found for `m` get to the implementation that `m` has: host callers by calling
the imp, guest callers through `objc_get_real_pc`. A host function is assumed not to contain a mark. -/
def LeadsTo (s : TrampolineState) (m : BitVec 64) (found : FoundMethod) : Prop :=
  let new := (s.method m).methodImp
  let imp := s.foundImp found
  if W.needEmulation new then
    hostTarget s.ctx.mem imp.toNat = some (.guest new) ∧
      s.objcGetRealPc W imp.toNat = some (.arm, new, none)
  else match W.myimpGetBlock new with
    | some info => hostTarget s.ctx.mem imp.toNat = some (.host new) ∧
        s.objcGetRealPc W imp.toNat = some (.armBlock, info.origInvoke, some info.block)
    | none => imp = new ∧
        (s.ctx.mem.loadWord (new.toNat + 2) 4 ∉
            [objcArmMark, objcArmBlockMark, callbackTrampolineMark] →
          s.objcGetRealPc W new.toNat = some (.x86, new, none))

def TakesEffect (s : TrampolineState) : MethodEvent → Prop
  | .lookup m entry exit => ∀ fuel found t,
      s.mygetMethodNoSuper W fuel m entry exit = some (found, t) → LeadsTo W t m found
  | _ => True

def PureHost (imp : BitVec 64) : Prop :=
  W.needEmulation imp = false ∧ W.myimpGetBlock imp = none

def Ready (s : TrampolineState) : Prop := s.ctx.poolLabels = none ∧ s.ctx.codeGenPtr < 2 ^ 64

/-- A method that has a trampoline changes only to a host function or to the imp that the trampoline
was made for. The method's address is not that of a function with a trampoline, and units can be
emitted where a lookup emits them. -/
def KeepsImp (s : TrampolineState) : MethodEvent → Prop
  | .lookup m entry exit => Ready s ∧
      (∀ e, s.trampolines m = some e → ∃ imp, e.made.bind builtImp = some imp) ∧
      ∀ info, W.myimpGetBlock (s.method m).methodImp = some info → info.origInvoke ≠ m ∧
        ∀ fuel p t, s.commonQueryAndAddTrampoline W fuel info.origInvoke entry exit = some (p, t) →
          Ready t
  | .setImplementation m imp => ∀ e, s.trampolines m = some e →
      PureHost W imp ∨ e.made.bind builtImp = some imp
  | .translation _ => s.ctx.poolLabels = none

variable {W}

def BuiltRight (W : EmulatedProcess) : TrampolineCode → Prop
  | .objc _ method _ _ => W.needEmulation method.methodImp = true
  | .impBlock _ method => W.needEmulation method.methodImp = false ∧
      ∃ info, W.myimpGetBlock method.methodImp = some info
  | _ => True

structure Consistent (W : EmulatedProcess) (s : TrampolineState) : Prop where
  allInPlace : AllInPlace W s
  current : ∀ key e made imp, s.trampolines key = some e → e.made = some made →
    made.builtImp = some imp → e.code < 2 ^ 64 ∧ BuiltRight W made ∧
      (PureHost W (s.method key).methodImp ∨ imp = (s.method key).methodImp)

variable {fuel : ℕ} {s t : TrampolineState}

theorem Consistent.emitUnit {ops : List EmitOp}
    (h : Consistent W s) (hempty : s.ctx.poolLabels = none) (ht : s.emitUnit fuel ops = some t) :
    Consistent W t := by
  obtain ⟨hall, -, htable, hmethod⟩ := emitUnit_spec hempty h.allInPlace ht
  refine ⟨hall, ?_⟩
  rw [htable, hmethod]
  exact h.current

variable {m : BitVec 64}

theorem Consistent.setImplementation {imp : BitVec 64}
    (h : Consistent W s) (hkeep : KeepsImp W s (.setImplementation m imp)) :
    Consistent W (s.setImplementation m imp) := by
  refine ⟨h.allInPlace, fun key e made built he hmade hbuilt => ?_⟩
  obtain ⟨hcode, hright, hcur⟩ := h.current key e made built he hmade hbuilt
  refine ⟨hcode, hright, ?_⟩
  by_cases hkey : key = m
  · subst hkey
    have hnew : ((s.setImplementation key imp).method key).methodImp = imp := by
      simp [TrampolineState.setImplementation]
    rw [hnew]
    rcases hkeep e he with hhost | hsame
    · exact .inl hhost
    · rw [hmade, bind_some, hbuilt] at hsame
      exact .inr (Option.some.inj hsame)
  · have hold : (s.setImplementation m imp).method key = s.method key := by
      simp [TrampolineState.setImplementation, hkey]
    rw [hold]
    exact hcur

variable {p : ℕ}

/-- A request keeps the state consistent if what it makes fits the present imp. -/
theorem Consistent.queryAndAdd (h : Consistent W s)
    (made : TrampolineCode) (hready : Ready s) (hright : BuiltRight W made)
    (himp : ∀ imp, made.builtImp = some imp → imp = (s.method made.key).methodImp)
    (ht : s.queryAndAdd W fuel made.key made = some (p, t)) : Consistent W t := by
  obtain ⟨hall, hmethod, hcase⟩ := queryAndAdd_spec made hready.1 h.allInPlace ht
  rcases hcase with ⟨e, -, -, rfl⟩ | ⟨-, hgen⟩
  · exact h
  · refine ⟨hall, fun key e made' imp he hmade hbuilt => ?_⟩
    rw [hmethod]
    rw [hgen.trampolines] at he
    by_cases hkey : key = made.key
    · subst hkey
      rw [Function.update_self] at he
      cases he
      cases hmade
      refine ⟨?_, hright, .inr (himp imp hbuilt)⟩
      rw [hgen.code]
      exact hready.2
    · rw [Function.update_of_ne hkey] at he
      exact h.current key e made' imp he hmade hbuilt

variable {method : ObjcMethod}

theorem foundImp_copy {mark : ℕ}
    {ops : List EmitOp} (hp : p < 2 ^ 64)
    (h : InPlace (.bytes (methodHeader p mark m method) :: ops) p s.ctx) :
    (s.foundImp (.copy p)).toNat = p := by
  have hword := loadWord_methodImp hp h
  rw [foundImp, Nat.add_assoc, hword, BitVec.toNat_ofNat, Nat.mod_eq_of_lt hp]

theorem leadsTo_objc {entry exit : BitVec 64}
    (hp : p < 2 ^ 64) (h : InPlace (ops W p (.objc m method entry exit)) p s.ctx)
    (himp : method.methodImp = (s.method m).methodImp)
    (hemu : W.needEmulation (s.method m).methodImp = true) : LeadsTo W s m (.copy p) := by
  simp only [LeadsTo, foundImp_copy hp h, if_pos hemu]
  exact ⟨himp ▸ hostTarget_objc h, objcGetRealPc_objc h⟩

theorem leadsTo_impBlock
    {info : IQemuBlockInfo} (hp : p < 2 ^ 64)
    (h : InPlace (ops W p (.impBlock m method)) p s.ctx)
    (himp : method.methodImp = (s.method m).methodImp)
    (hhost : W.needEmulation (s.method m).methodImp = false)
    (hinfo : W.myimpGetBlock (s.method m).methodImp = some info) : LeadsTo W s m (.copy p) := by
  simp only [LeadsTo, foundImp_copy hp h, hhost, Bool.false_eq_true, if_false, hinfo]
  refine ⟨himp ▸ hostTarget_impBlock h, ?_⟩
  rw [objcGetRealPc_impBlock h, hinfo]
  rfl

theorem leadsTo_real
    (hhost : PureHost W (s.method m).methodImp) : LeadsTo W s m (.real m) := by
  simp only [LeadsTo, hhost.1, Bool.false_eq_true, if_false, hhost.2]
  refine ⟨rfl, fun hmark => ?_⟩
  simp only [List.mem_cons, List.not_mem_nil, or_false, not_or] at hmark
  simp [objcGetRealPc, hmark]

/-- A trampoline that a method already has leads to the present imp, whichever kind it is of. -/
theorem Consistent.leadsTo {e : Trampoline}
    (h : Consistent W s) (he : s.trampolines m = some e)
    (hbuilt : ∃ imp, e.made.bind builtImp = some imp)
    (hcur : ¬ PureHost W (s.method m).methodImp) : LeadsTo W s m (.copy e.code) := by
  obtain ⟨imp, himp⟩ := hbuilt
  obtain ⟨made, hmade, himp⟩ := bind_eq_some_iff.mp himp
  obtain ⟨hkey, hplace⟩ := h.allInPlace m e made he hmade
  obtain ⟨hcode, hright, hsame⟩ := h.current m e made imp he hmade himp
  replace hsame := hsame.resolve_left hcur
  cases made with
  | common => cases himp
  | callback => cases himp
  | objc m' method entry exit =>
    cases hkey
    cases himp
    exact leadsTo_objc hcode hplace hsame (hsame ▸ hright)
  | impBlock m' method =>
    cases hkey
    cases himp
    obtain ⟨hhost, info, hinfo⟩ := hright
    exact leadsTo_impBlock hcode hplace hsame (hsame ▸ hhost) (hsame ▸ hinfo)

theorem lookup_spec {entry exit : BitVec 64}
    {found : FoundMethod} (h : Consistent W s) (hkeep : KeepsImp W s (.lookup m entry exit))
    (ht : s.mygetMethodNoSuper W fuel m entry exit = some (found, t)) :
    Consistent W t ∧ LeadsTo W t m found := by
  obtain ⟨hready, hbuilt, hblock⟩ := hkeep
  simp only [mygetMethodNoSuper] at ht
  by_cases hemu : W.needEmulation (s.method m).methodImp = true
  · rw [if_pos hemu] at ht
    obtain ⟨⟨p, u⟩, hu, heq⟩ := map_eq_some_iff.mp ht
    cases heq
    have hcons := h.queryAndAdd (.objc m (s.method m) entry exit) hready hemu
      (fun imp himp => (Option.some.inj himp).symm) hu
    obtain ⟨-, hmethod, hcase⟩ :=
      queryAndAdd_spec (.objc m (s.method m) entry exit) hready.1 h.allInPlace hu
    refine ⟨hcons, ?_⟩
    rcases hcase with ⟨e, he, rfl, rfl⟩ | ⟨-, hgen⟩
    · exact h.leadsTo he (hbuilt e he) (fun hhost => by simp [hhost.1] at hemu)
    · refine leadsTo_objc ?_ hgen.inPlace (by rw [hmethod]) (by rw [hmethod]; exact hemu)
      rw [hgen.code]
      exact hready.2
  · rw [if_neg hemu] at ht
    rw [Bool.not_eq_true] at hemu
    cases hinfo : W.myimpGetBlock (s.method m).methodImp with
    | none =>
      rw [hinfo] at ht
      cases ht
      exact ⟨h, leadsTo_real ⟨hemu, hinfo⟩⟩
    | some info =>
      rw [hinfo] at ht
      obtain ⟨⟨q, u⟩, hu, ht⟩ := bind_eq_some_iff.mp ht
      obtain ⟨⟨p, v⟩, hv, heq⟩ := map_eq_some_iff.mp ht
      cases heq
      -- the block's function first, then the method
      obtain ⟨hne, hready'⟩ := hblock info hinfo
      replace hready' := hready' fuel q u hu
      have hcommon := h.queryAndAdd (.common info.origInvoke entry exit) hready trivial
        (fun imp himp => nomatch himp) hu
      obtain ⟨-, hmethod, hcase⟩ :=
        queryAndAdd_spec (.common info.origInvoke entry exit) hready.1 h.allInPlace hu
      have hsame : u.trampolines m = s.trampolines m := by
        rcases hcase with ⟨e, -, -, rfl⟩ | ⟨-, hgen⟩
        · rfl
        · rw [hgen.trampolines]
          exact Function.update_of_ne hne.symm _ _
      have hemu' : W.needEmulation (u.method m).methodImp = false := by rw [hmethod]; exact hemu
      have hinfo' : W.myimpGetBlock (u.method m).methodImp = some info := by
        rw [hmethod]
        exact hinfo
      have hcons := hcommon.queryAndAdd (.impBlock m (u.method m)) hready'
        ⟨hemu', info, hinfo'⟩ (fun imp himp => (Option.some.inj himp).symm) hv
      obtain ⟨-, hmethod', hcase'⟩ :=
        queryAndAdd_spec (.impBlock m (u.method m)) hready'.1 hcommon.allInPlace hv
      refine ⟨hcons, ?_⟩
      rcases hcase' with ⟨e, he, rfl, rfl⟩ | ⟨-, hgen⟩
      · exact hcommon.leadsTo he (hbuilt e (hsame ▸ he)) (fun hhost => nomatch hinfo'.symm.trans hhost.2)
      · refine leadsTo_impBlock ?_ hgen.inPlace (by rw [hmethod']) (by rw [hmethod']; exact hemu')
          (by rw [hmethod']; exact hinfo')
        rw [hgen.code]
        exact hready'.2

theorem Consistent.step {e : MethodEvent} (h : Consistent W s)
    (hkeep : KeepsImp W s e) (ht : MethodStep W s e t) : Consistent W t := by
  obtain ⟨fuel, ht⟩ := ht
  cases e with
  | lookup m entry exit =>
    obtain ⟨⟨found, u⟩, hu, rfl⟩ := map_eq_some_iff.mp ht
    exact (lookup_spec h hkeep hu).1
  | setImplementation m imp =>
    cases ht
    exact h.setImplementation hkeep
  | translation ops => exact h.emitUnit hkeep ht

theorem Consistent.takesEffect {e : MethodEvent} (h : Consistent W s)
    (hkeep : KeepsImp W s e) : TakesEffect W s e := by
  cases e with
  | lookup m entry exit => exact fun fuel found t ht => (lookup_spec h hkeep ht).2
  | setImplementation m imp => trivial
  | translation ops => trivial

end TrampolineState

/-- Method replacement takes effect in every sequence of lookups and changes in which a method with a
trampoline changes only to a host function or back to the imp of its trampoline. -/
theorem methodReplacement_takesEffect (W : EmulatedProcess) (s : TrampolineState)
    (hs : ∀ key, s.trampolines key = none) (es : List MethodEvent)
    (hkeep : Runs.Along (TrampolineState.MethodStep W) (TrampolineState.KeepsImp W) s es) :
    Runs.Along (TrampolineState.MethodStep W) (TrampolineState.TakesEffect W) s es := by
  have hcons : TrampolineState.Consistent W s :=
    ⟨fun key e made he => by simp [hs] at he, fun key e made imp he => by simp [hs] at he⟩
  have hinv := hkeep.invariant (I := TrampolineState.Consistent W)
    (fun s e t hs h ht => hs.step h ht) hcons
  exact hinv.mono fun _ _ h => h.1.takesEffect h.2

/-- A lookup, a change to a host function and back, and another lookup. -/
theorem methodReplacement_takesEffect_back :
    Runs.Along (TrampolineState.MethodStep exampleProcess)
      (TrampolineState.TakesEffect exampleProcess) freshTrampolines
      [.setImplementation 0x20000 0x7000, .lookup 0x20000 0x11000 0x12000,
        .setImplementation 0x20000 0x100002000, .lookup 0x20000 0x11000 0x12000] := by
  refine methodReplacement_takesEffect _ _ (fun _ => rfl) _ ⟨fun e he => (by cases he), ?_⟩
  rintro t ⟨fuel, ht⟩
  cases ht
  refine ⟨⟨⟨rfl, by decide⟩, fun e he => (by cases he), fun info hinfo => (by cases hinfo)⟩, ?_⟩
  rintro t ⟨fuel', ht⟩
  cases ht
  refine ⟨fun e he => (by cases he), ?_⟩
  rintro t ⟨fuel'', ht⟩
  cases ht
  exact ⟨⟨⟨rfl, by decide⟩, fun e he => (by cases he), fun info hinfo => (by cases hinfo)⟩,
    fun _ _ => trivial⟩

/-- After a change from one guest function to another, host callers still reach the first. -/
theorem methodReplacement_takesEffect_guest :
    ¬ Runs.Along (TrampolineState.MethodStep exampleProcess)
      (TrampolineState.TakesEffect exampleProcess) freshTrampolines
      [.lookup 0x20000 0x11000 0x12000, .setImplementation 0x20000 0x100003000,
        .lookup 0x20000 0x11000 0x12000] := by
  intro h
  obtain ⟨t, ht, hfound, himp, htarget⟩ : ∃ t,
      TrampolineState.MethodStep exampleProcess freshTrampolines (.lookup 0x20000 0x11000 0x12000) t ∧
      TrampolineState.mygetMethodNoSuper exampleProcess 0 (t.setImplementation 0x20000 0x100003000)
          0x20000 0x11000 0x12000 =
        some (.copy 0x10000, t.setImplementation 0x20000 0x100003000) ∧
      (t.setImplementation 0x20000 0x100003000).foundImp (.copy 0x10000) = 0x10000 ∧
      hostTarget (t.setImplementation 0x20000 0x100003000).ctx.mem 0x10000 =
        some (.guest 0x100002000) :=
    ⟨_, ⟨0, rfl⟩, rfl, rfl, rfl⟩
  have hstep : TrampolineState.MethodStep exampleProcess t (.setImplementation 0x20000 0x100003000)
      (t.setImplementation 0x20000 0x100003000) := ⟨0, rfl⟩
  have hleads := ((h.2 t ht).2 _ hstep).1 0 _ _ hfound
  have hnew : ((t.setImplementation 0x20000 0x100003000).method 0x20000).methodImp =
      0x100003000 := by simp [TrampolineState.setImplementation]
  simp only [TrampolineState.LeadsTo, himp, hnew] at hleads
  rw [if_pos (by decide)] at hleads
  have hboth := htarget.symm.trans hleads.1
  cases hboth

end Iqemu64
